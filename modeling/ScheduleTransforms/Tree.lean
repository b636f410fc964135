import ScheduleTransforms.Isl
import Mathlib.Data.List.InsertIdx
import Mathlib.Data.List.Infix
/-!
# Tree — schedule trees, positions in them, and the edits the transformations make

A node owns its element and the ordered list of its children.  A node is named by its position, the
child indices from the root (`get?`); `ancestors` lists the elements from the root down to a node's
parent, as `ScheduleTree::ancestors(root)` lists the nodes, and `replaceAt` puts a subtree in a
position.  Away from the replaced position neither a node's element nor its ancestors change
(`ancestors_replaceAt_outside`, `elemAt_replaceAt_outside`); below it the ancestors are
those of the position followed by those inside the new subtree (`ancestors_replaceAt_append`).
-/
namespace Polyhedral

/-- A band node's data, `ScheduleTreeElemBand`: the schedule function, one member per coordinate, and
the per-member flag vectors. -/
structure Band where
  mupa : Mupa
  permutable : Bool
  coincident : List Bool
  unroll : List Bool

/-- `nMember()`. -/
def Band.nMember (b : Band) : Nat := b.mupa.length

/-- A hardware dimension a mapping filter binds, `mapping::MappingId`. -/
abbrev MappingId := String

/-- The element of a node, one constructor per kind of `ScheduleTreeElem`. -/
inductive Elem where
  | domain (domain : USet)
  | context (context : ParamSet)
  | band (band : Band)
  | filter (filter : USet)
  | mappingFilter (filter : USet) (mappingIds : List MappingId)
  | extension (extension : ExtMap)
  | sequence
  | set

/-- `elemAsBase<ScheduleTreeElemFilter>()`: the set of a filter or of a mapping filter. -/
def Elem.filterSet? : Elem → Option USet
  | .filter s | .mappingFilter s _ => some s
  | _ => none

def Elem.isDomain : Elem → Bool
  | .domain _ => true
  | _ => false

def Elem.isSequence : Elem → Bool
  | .sequence => true
  | _ => false

/-- `elemAs<ScheduleTreeElemFilter>()`: a filter, not a mapping filter. -/
def Elem.isFilter : Elem → Bool
  | .filter _ => true
  | _ => false

def Elem.isMappingFilter : Elem → Bool
  | .mappingFilter _ _ => true
  | _ => false

/-- A schedule tree: an element and the children the node owns, in order. -/
inductive ScheduleTree where
  | node (elem : Elem) (children : List ScheduleTree)

namespace ScheduleTree

def elem : ScheduleTree → Elem
  | node e _ => e

def children : ScheduleTree → List ScheduleTree
  | node _ cs => cs

/-- `numChildren()`. -/
def numChildren (t : ScheduleTree) : Nat := t.children.length

@[simp] theorem elem_node (e : Elem) (cs : List ScheduleTree) : (node e cs).elem = e := rfl

@[simp] theorem children_node (e : Elem) (cs : List ScheduleTree) : (node e cs).children = cs := rfl

@[simp] theorem node_elem_children (t : ScheduleTree) : node t.elem t.children = t := by cases t; rfl

/-- The subtree at a position: `child({i, j, ...})`. -/
def get? : ScheduleTree → List Nat → Option ScheduleTree
  | t, [] => some t
  | node _ cs, i :: p => cs[i]?.bind fun c => c.get? p

/-- The elements from the root down to the parent of the node at a position: `ancestors(root)`. -/
def ancestors : ScheduleTree → List Nat → Option (List Elem)
  | _, [] => some []
  | node e cs, i :: p => cs[i]?.bind fun c => (c.ancestors p).map (e :: ·)

/-- The error for a position that names no node (the source names nodes by pointer). -/
def noSuchNode : String := "no node at this position"

/-- The element of the node at a position. -/
def elemAt (t : ScheduleTree) (p : List Nat) : Option Elem := (t.get? p).map elem

/-- The elements from the root down to the node at a position, the node included. -/
def path (t : ScheduleTree) (p : List Nat) : Option (List Elem) :=
  (t.ancestors p).bind fun es => (t.elemAt p).map fun e => es ++ [e]

/-- The tree with the subtree at a position replaced. -/
def replaceAt : ScheduleTree → List Nat → ScheduleTree → ScheduleTree
  | _, [], new => new
  | node e cs, i :: p, new => node e (cs.modify (·.replaceAt p new) i)

mutual
/-- The number of nodes of a tree. -/
def size : ScheduleTree → Nat
  | node _ cs => sizeList cs + 1
/-- The number of nodes of a list of trees. -/
def sizeList : List ScheduleTree → Nat
  | [] => 0
  | c :: cs => c.size + sizeList cs
end

/-- The tree after an in-place edit of the node at a position: the transformations take the node by
pointer and change it inside the tree. -/
def editAt (t : ScheduleTree) (p : List Nat) (f : ScheduleTree → Except String ScheduleTree) :
    Except String ScheduleTree :=
  match t.get? p with
  | some s => (f s).map (t.replaceAt p)
  | none => .error noSuchNode

/-- A computation that returns normally returned normally at each step. -/
theorem exists_of_bind_eq_ok {α β : Type} {x : Except String α} {f : α → Except String β} {b : β}
    (h : (x >>= f) = .ok b) : ∃ a, x = .ok a ∧ f a = .ok b := by
  cases x with
  | error e => cases h
  | ok a => exact ⟨a, rfl, h⟩

@[simp] theorem get?_nil (t : ScheduleTree) : t.get? [] = some t := by cases t; rfl

@[simp] theorem get?_cons (e : Elem) (cs : List ScheduleTree) (i : Nat) (p : List Nat) :
    (node e cs).get? (i :: p) = cs[i]?.bind fun c => c.get? p := rfl

@[simp] theorem ancestors_nil (t : ScheduleTree) : t.ancestors [] = some [] := by cases t; rfl

@[simp] theorem ancestors_cons (e : Elem) (cs : List ScheduleTree) (i : Nat) (p : List Nat) :
    (node e cs).ancestors (i :: p) = cs[i]?.bind fun c => (c.ancestors p).map (e :: ·) := rfl

theorem ancestors_cons_eq_map (e : Elem) (cs : List ScheduleTree) (i : Nat) (p : List Nat) :
    (node e cs).ancestors (i :: p) = (cs[i]?.bind fun c => c.ancestors p).map (e :: ·) := by
  rw [ancestors_cons]
  cases cs[i]? <;> rfl

@[simp] theorem replaceAt_nil (t new : ScheduleTree) : t.replaceAt [] new = new := by cases t; rfl

@[simp] theorem replaceAt_cons (e : Elem) (cs : List ScheduleTree) (i : Nat) (p : List Nat)
    (new : ScheduleTree) :
    (node e cs).replaceAt (i :: p) new = node e (cs.modify (·.replaceAt p new) i) := rfl

theorem get?_append (t : ScheduleTree) (p q : List Nat) :
    t.get? (p ++ q) = (t.get? p).bind fun s => s.get? q := by
  induction p generalizing t with
  | nil => simp
  | cons i p ih =>
    obtain ⟨e, cs⟩ := t
    simp only [List.cons_append, get?_cons, Option.bind_assoc, ih]

/-- A position names a node exactly when it has ancestors. -/
theorem ancestors_isSome (t : ScheduleTree) (p : List Nat) :
    (t.ancestors p).isSome = (t.get? p).isSome := by
  induction p generalizing t with
  | nil => simp
  | cons i p ih =>
    obtain ⟨e, cs⟩ := t
    cases hc : cs[i]? with
    | none => simp [hc]
    | some c => simpa [hc] using ih c

theorem ancestors_append {t s : ScheduleTree} {p : List Nat} (h : t.get? p = some s) (q : List Nat) :
    t.ancestors (p ++ q) = (t.ancestors p).bind fun es => (s.ancestors q).map (es ++ ·) := by
  induction p generalizing t with
  | nil => rw [get?_nil, Option.some.injEq] at h; subst h; simp
  | cons i p ih =>
    obtain ⟨e, cs⟩ := t
    simp only [get?_cons] at h
    cases hc : cs[i]? with
    | none => simp [hc] at h
    | some c =>
      rw [hc, Option.some_bind] at h
      simp only [List.cons_append, ancestors_cons, hc, Option.some_bind, ih h]
      cases c.ancestors p <;> cases s.ancestors q <;> rfl

/-- An edit inside a subtree just put in place is an edit of the subtree before it is put there. -/
theorem replaceAt_replaceAt_append (t s new : ScheduleTree) (p q : List Nat) :
    (t.replaceAt p s).replaceAt (p ++ q) new = t.replaceAt p (s.replaceAt q new) := by
  induction p generalizing t with
  | nil => simp
  | cons i p ih =>
    obtain ⟨e, cs⟩ := t
    simp only [List.cons_append, replaceAt_cons, List.modify_modify_eq]
    exact congrArg (node e) (congrArg (List.modify · i cs) (funext fun c => ih c))

/-- Putting back the subtree a position holds changes nothing. -/
theorem replaceAt_get?_self {t s : ScheduleTree} {p : List Nat} (h : t.get? p = some s) : t.replaceAt p s = t := by
  induction p generalizing t with
  | nil => rw [get?_nil, Option.some.injEq] at h; subst h; simp
  | cons i p ih =>
    obtain ⟨e, cs⟩ := t
    obtain ⟨c, hc, hcs⟩ := Option.bind_eq_some.mp h
    refine congrArg (node e) (List.ext_getElem? fun j => ?_)
    rw [List.getElem?_modify]
    split
    · subst_vars; simp [hc, ih hcs]
    · simp

theorem get?_replaceAt_append {t s : ScheduleTree} {p : List Nat} (h : t.get? p = some s)
    (new : ScheduleTree) (q : List Nat) : (t.replaceAt p new).get? (p ++ q) = new.get? q := by
  induction p generalizing t with
  | nil => simp
  | cons i p ih =>
    obtain ⟨e, cs⟩ := t
    simp only [get?_cons] at h
    cases hc : cs[i]? with
    | none => simp [hc] at h
    | some c =>
      rw [hc, Option.some_bind] at h
      simp [List.getElem?_modify, hc, ih h]

theorem ancestors_replaceAt_append {t s : ScheduleTree} {p : List Nat} (h : t.get? p = some s)
    (new : ScheduleTree) (q : List Nat) :
    (t.replaceAt p new).ancestors (p ++ q) = (t.ancestors p).bind fun es => (new.ancestors q).map (es ++ ·) := by
  induction p generalizing t with
  | nil => simp
  | cons i p ih =>
    obtain ⟨e, cs⟩ := t
    simp only [get?_cons] at h
    cases hc : cs[i]? with
    | none => simp [hc] at h
    | some c =>
      rw [hc, Option.some_bind] at h
      simp only [List.cons_append, replaceAt_cons, ancestors_cons, List.getElem?_modify, hc,
        Option.map_eq_map, Option.map_some', if_true, Option.some_bind, ih h]
      cases c.ancestors p <;> cases new.ancestors q <;> rfl

theorem ancestors_take {t : ScheduleTree} {n : List Nat} {es : List Elem} (h : t.ancestors n = some es)
    (k : Nat) : t.ancestors (n.take k) = some (es.take k) := by
  induction n generalizing t es k with
  | nil => simp only [ancestors_nil, Option.some.injEq] at h; subst h; simp
  | cons i p ih =>
    obtain ⟨e, cs⟩ := t
    obtain ⟨c, hc, hes⟩ := Option.bind_eq_some.mp h
    obtain ⟨es', hes', rfl⟩ := Option.map_eq_some'.mp hes
    cases k with
    | zero => simp
    | succ k => simp [hc, ih hes']

theorem length_of_ancestors {t : ScheduleTree} {n : List Nat} {es : List Elem} (h : t.ancestors n = some es) :
    es.length = n.length := by
  induction n generalizing t es with
  | nil => simp only [ancestors_nil, Option.some.injEq] at h; subst h; rfl
  | cons i p ih =>
    obtain ⟨e, cs⟩ := t
    obtain ⟨c, -, hes⟩ := Option.bind_eq_some.mp h
    obtain ⟨es', hes', rfl⟩ := Option.map_eq_some'.mp hes
    simp [ih hes']

/-- The `k`-th ancestor of a node is the node at the first `k` steps of its position. -/
theorem elemAt_take {t : ScheduleTree} {n : List Nat} {es : List Elem} (h : t.ancestors n = some es)
    {k : Nat} (hk : k < n.length) : t.elemAt (n.take k) = es[k]? := by
  induction n generalizing t es k with
  | nil => cases hk
  | cons i p ih =>
    obtain ⟨e, cs⟩ := t
    obtain ⟨c, hc, hes⟩ := Option.bind_eq_some.mp h
    obtain ⟨es', hes', rfl⟩ := Option.map_eq_some'.mp hes
    cases k with
    | zero => simp [elemAt]
    | succ k =>
      have := ih hes' (Nat.lt_of_succ_lt_succ hk)
      simp only [elemAt, List.take_succ_cons, get?_cons, hc, Option.some_bind] at this ⊢
      simpa using this

/-- Replacing a subtree leaves every node not inside it with its ancestors. -/
theorem ancestors_replaceAt_outside (t new : ScheduleTree) {p q : List Nat} (hpq : ¬ p <+: q) :
    (t.replaceAt p new).ancestors q = t.ancestors q := by
  induction p generalizing t q with
  | nil => exact absurd List.nil_prefix hpq
  | cons i p ih =>
    obtain _ | ⟨j, q⟩ := q
    · simp
    obtain ⟨e, cs⟩ := t
    simp only [replaceAt_cons, ancestors_cons, List.getElem?_modify]
    by_cases hij : i = j
    · subst hij
      have hq : ¬ p <+: q := fun h => hpq (List.cons_prefix_cons.mpr ⟨rfl, h⟩)
      cases cs[i]? <;> simp [ih _ hq]
    · simp [hij]

/-- A replacement leaves the ancestors of the replaced node, and of every node above it. -/
theorem ancestors_replaceAt_of_prefix {t s : ScheduleTree} {p q : List Nat} (h : t.get? p = some s)
    (new : ScheduleTree) (hq : q <+: p) : (t.replaceAt p new).ancestors q = t.ancestors q := by
  by_cases hpq : p <+: q
  · obtain rfl := hpq.eq_of_length (le_antisymm hpq.length_le hq.length_le)
    simpa using ancestors_replaceAt_append h new []
  · exact ancestors_replaceAt_outside t new hpq

/-- … and with its element. -/
theorem elemAt_replaceAt_outside (t new : ScheduleTree) {p q : List Nat} (hpq : ¬ p <+: q) :
    (t.replaceAt p new).elemAt q = t.elemAt q := by
  induction p generalizing t q with
  | nil => exact absurd List.nil_prefix hpq
  | cons i p ih =>
    obtain ⟨e, cs⟩ := t
    obtain _ | ⟨j, q⟩ := q
    · rfl
    simp only [elemAt, get?_cons, replaceAt_cons, List.getElem?_modify] at ih ⊢
    by_cases hij : i = j
    · subst hij
      have hq : ¬ p <+: q := fun h => hpq (List.cons_prefix_cons.mpr ⟨rfl, h⟩)
      cases cs[i]? <;> simp [ih _ hq]
    · simp [hij]

@[simp] theorem path_nil (t : ScheduleTree) : t.path [] = some [t.elem] := by cases t; rfl

@[simp] theorem path_cons (e : Elem) (cs : List ScheduleTree) (i : Nat) (p : List Nat) :
    (node e cs).path (i :: p) = cs[i]?.bind fun c => (c.path p).map (e :: ·) := by
  simp only [path, elemAt, ancestors_cons, get?_cons]
  cases cs[i]? with
  | none => rfl
  | some c => simp only [Option.some_bind]; cases c.ancestors p <;> cases c.get? p <;> rfl

theorem path_append {t s : ScheduleTree} {p : List Nat} (h : t.get? p = some s) (q : List Nat) :
    t.path (p ++ q) = (t.ancestors p).bind fun es => (s.path q).map (es ++ ·) := by
  simp only [path, elemAt, ancestors_append h, get?_append, h, Option.some_bind]
  cases t.ancestors p <;> cases s.ancestors q <;> cases s.get? q <;> simp

theorem path_replaceAt_append {t s : ScheduleTree} {p : List Nat} (h : t.get? p = some s)
    (new : ScheduleTree) (q : List Nat) :
    (t.replaceAt p new).path (p ++ q) = (t.ancestors p).bind fun es => (new.path q).map (es ++ ·) := by
  simp only [path, elemAt, ancestors_replaceAt_append h, get?_replaceAt_append h]
  cases t.ancestors p <;> cases new.ancestors q <;> cases new.get? q <;> simp

theorem ancestors_eq_path_dropLast (t : ScheduleTree) (p : List Nat) :
    t.ancestors p = (t.path p).map List.dropLast := by
  have := ancestors_isSome t p
  rw [path, elemAt]
  cases ha : t.ancestors p <;> cases hg : t.get? p <;> simp_all

theorem path_replaceAt_outside (t new : ScheduleTree) {p q : List Nat} (hpq : ¬ p <+: q) :
    (t.replaceAt p new).path q = t.path q := by
  simp only [path, ancestors_replaceAt_outside _ _ hpq, elemAt_replaceAt_outside _ _ hpq]

theorem elem_mem_path {t : ScheduleTree} {q : List Nat} {es : List Elem} (h : t.path q = some es) : t.elem ∈ es := by
  obtain ⟨e, cs⟩ := t
  cases q with
  | nil => rw [path_nil, Option.some.injEq] at h; exact h ▸ List.mem_singleton_self _
  | cons i q =>
    rw [path_cons] at h
    obtain ⟨c, -, h⟩ := Option.bind_eq_some.mp h
    obtain ⟨es, -, rfl⟩ := Option.map_eq_some'.mp h
    exact List.mem_cons_self _ _

/-- Every ancestor of a node is the element of some node. -/
theorem exists_elemAt_of_mem_ancestors {t : ScheduleTree} {n : List Nat} {es : List Elem}
    (h : t.ancestors n = some es) {e : Elem} (he : e ∈ es) : ∃ p, t.elemAt p = some e := by
  obtain ⟨k, hk, rfl⟩ := List.getElem_of_mem he
  exact ⟨n.take k, by rw [elemAt_take h (length_of_ancestors h ▸ hk), List.getElem?_eq_getElem hk]⟩

/-- Under a root that is the only Domain node, the ancestors of a node below it are the root's
element followed by no Domain. -/
theorem ancestors_eq_domain_cons {D : USet} {cs : List ScheduleTree}
    (hdom : ∀ p d, p ≠ [] → (node (.domain D) cs).elemAt p ≠ some (.domain d)) {n : List Nat} (hn : n ≠ [])
    {ancs : List Elem} (h : (node (.domain D) cs).ancestors n = some ancs) :
    ∃ rest, ancs = .domain D :: rest ∧ ∀ e ∈ rest, ∀ d, e ≠ .domain d := by
  obtain _ | ⟨i, p⟩ := n
  · exact absurd rfl hn
  obtain ⟨c, -, hc⟩ := Option.bind_eq_some.mp h
  obtain ⟨rest, -, rfl⟩ := Option.map_eq_some'.mp hc
  refine ⟨rest, rfl, ?_⟩
  rintro e he d rfl
  obtain ⟨k, hk, hke⟩ := List.getElem_of_mem he
  have hlen := length_of_ancestors h
  refine hdom ((i :: p).take (k + 1)) d (by simp) ?_
  rw [elemAt_take h (by simp only [List.length_cons] at hlen ⊢; omega), List.getElem?_cons_succ,
    List.getElem?_eq_getElem hk, hke]

theorem exists_replaceAt_eq_node (e : Elem) (cs : List ScheduleTree) {p : List Nat} (hp : p ≠ [])
    (new : ScheduleTree) : ∃ cs', (node e cs).replaceAt p new = node e cs' := by
  obtain _ | ⟨i, p⟩ := p
  · exact absurd rfl hp
  · exact ⟨_, rfl⟩

/-- A node whose element differs from the root's is not the root. -/
theorem ne_nil_of_get? {t s : ScheduleTree} {p : List Nat} (h : t.get? p = some s) (hs : s.elem ≠ t.elem) :
    p ≠ [] := by
  rintro rfl
  rw [get?_nil, Option.some.injEq] at h
  exact hs (h ▸ rfl)

@[simp] theorem elem_replaceAt_cons (t new : ScheduleTree) (i : Nat) (p : List Nat) :
    (t.replaceAt (i :: p) new).elem = t.elem := by
  cases t; rfl

theorem sizeList_modify (f : ScheduleTree → ScheduleTree) :
    ∀ (cs : List ScheduleTree) (i : Nat) {c : ScheduleTree}, cs[i]? = some c →
      sizeList (cs.modify f i) + c.size = sizeList cs + (f c).size
  | [], _, _, h => by simp at h
  | c' :: cs, 0, c, h => by
    rw [List.getElem?_cons_zero, Option.some.injEq] at h
    subst h
    rw [List.modify_zero_cons, sizeList, sizeList]; omega
  | c' :: cs, i + 1, c, h => by
    rw [List.getElem?_cons_succ] at h
    have := sizeList_modify f cs i h
    rw [List.modify_succ_cons, sizeList, sizeList]; omega

theorem sizeList_set :
    ∀ (cs : List ScheduleTree) (i : Nat) {c : ScheduleTree} (c' : ScheduleTree), cs[i]? = some c →
      sizeList (cs.set i c') + c.size = sizeList cs + c'.size
  | [], _, _, _, h => by simp at h
  | c₀ :: cs, 0, c, c', h => by
    rw [List.getElem?_cons_zero, Option.some.injEq] at h
    subst h
    simp only [List.set_cons_zero, sizeList]; omega
  | c₀ :: cs, i + 1, c, c', h => by
    rw [List.getElem?_cons_succ] at h
    have := sizeList_set cs i c' h
    simp only [List.set_cons_succ, sizeList]; omega

/-- Replacing a subtree changes the size by the difference of the two subtrees' sizes. -/
theorem size_replaceAt {t old : ScheduleTree} {p : List Nat} (h : t.get? p = some old) (new : ScheduleTree) :
    (t.replaceAt p new).size + old.size = t.size + new.size := by
  induction p generalizing t with
  | nil => rw [get?_nil, Option.some.injEq] at h; subst h; simp only [replaceAt_nil]; omega
  | cons i p ih =>
    obtain ⟨e, cs⟩ := t
    obtain ⟨c, hc, hp⟩ := Option.bind_eq_some.mp h
    have hmod := sizeList_modify (·.replaceAt p new) cs i hc
    have := ih hp
    simp only [replaceAt_cons, size] at hmod ⊢; omega

/-- An edit that succeeds on the node puts its result in the node's place. -/
theorem editAt_eq {t s s' : ScheduleTree} {p : List Nat} {f : ScheduleTree → Except String ScheduleTree}
    (h : t.get? p = some s) (hf : f s = .ok s') : t.editAt p f = .ok (t.replaceAt p s') := by
  simp only [editAt, h, hf]; rfl

end ScheduleTree

end Polyhedral
