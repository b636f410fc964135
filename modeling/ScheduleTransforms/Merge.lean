import ScheduleTransforms.WellFormed
import Mathlib.Data.List.Nodup
/-!
# Merge — merging a mapping filter into the mapping filter above it

`mergeConsecutiveMappingFilters` scans the mapping filters of a subtree, in the order `collect` lists
them, for the first one whose parent is a mapping filter and whose intersection with the parent's set
keeps the number of tuple spaces of both (`mergeable`).  The parent takes the intersection and the
union of the ids (`mergeIds`, failing on an id bound by both), and the child's first child takes the
child's place (`mergeAt`).  The scan restarts after each merge (`mergeScan`); each merge removes a
node, so the loop ends (`size_mergeScan`).  Each merge removes a mapping filter, so the loop makes at
most as many merges as the tree has, and when the function returns no mapping filter of the subtree
can be merged into its parent (`mergeConsecutiveMappingFilters_reaches_fixed_point`): run again on
what it returned, it returns the same (`mergeConsecutiveMappingFilters_idempotent`).

The merge puts the child's ids on the parent, which also sits above the parent's other children: an
id those children bind again is then bound twice on one path, with no check failing
(`mergeConsecutiveMappingFilters_binds_id_twice`).  Only the child's first child takes the child's
place: its other children are deleted with it (`mergeConsecutiveMappingFilters_drops_children`).  `collect` lists `node` itself, whose parent lies
outside the subtree: a mapping filter `node` under a mapping filter is merged into it and freed
(`mergeConsecutiveMappingFilters_merges_node_away`).
-/
namespace Polyhedral

open ScheduleTree

mutual
/-- Modelled from the spec: `ScheduleTree::collect(tree, MappingFilter)`, which is not in the source,
the positions in `tree` of its mapping filters, itself included, in pre-order. -/
def mappingFilters : ScheduleTree → List (List Nat)
  | node e cs => (if e.isMappingFilter then [[]] else []) ++ mappingFiltersList 0 cs
/-- The positions of the mapping filters of the children from the `i`-th on. -/
def mappingFiltersList : Nat → List ScheduleTree → List (List Nat)
  | _, [] => []
  | i, c :: cs => (mappingFilters c).map (i :: ·) ++ mappingFiltersList (i + 1) cs
end

/-- The tests the loop makes on the mapping filter at `f`: its parent is a mapping filter, and the
intersection of their sets has as many tuple spaces as each. -/
def mergeable (I : Isl) (root : ScheduleTree) (f : List Nat) : Bool :=
  match root.elemAt f.dropLast, root.elemAt f with
  | some (.mappingFilter ps _), some (.mappingFilter fs _) =>
    I.nSet (ps ∩ fs) == I.nSet ps && I.nSet (ps ∩ fs) == I.nSet fs
  | _, _ => false

/-- The loop over the child's ids: each is added to the parent's, and one the parent binds already
fails the check (the printed subtrees are left out of the message). -/
def mergeIds : List MappingId → List MappingId → Except String (List MappingId)
  | ids, [] => .ok ids
  | ids, id :: rest =>
    if id ∈ ids then .error ("Error when merging filters\n\nand\n\nid: " ++ id ++ " mapped in both!")
    else mergeIds (ids ++ [id]) rest

/-- The error for `f->detachChild(0)` on a mapping filter without children (`detachChild` is outside
the source). -/
def noChildToDetach : String := "no child to detach"

/-- The merge of the mapping filter at `f` into its parent: the parent's set becomes the intersection,
its ids the union, and `f`'s first child takes `f`'s place, `f`'s other children going with `f`. -/
def mergeAt (root : ScheduleTree) (f : List Nat) : Except String ScheduleTree :=
  match f.getLast?, root.get? f.dropLast, root.get? f with
  | some i, some (node (.mappingFilter ps pids) pcs), some (node (.mappingFilter fs fids) (c :: _)) => do
    let ids ← mergeIds pids fids
    pure (root.replaceAt f.dropLast (node (.mappingFilter (ps ∩ fs) ids) (pcs.set i c)))
  | _, _, _ => .error noChildToDetach

/-- The error standing for what follows a merge of `node` itself into its parent: the merge frees
`node`, and the next pass collects from the freed node. -/
def nodeDestroyed : String := "node was merged into its parent and freed"

/-- One pass of the `while (changed)` loop: the tree after the merge it makes, if it makes one. -/
def mergeScan (I : Isl) (root : ScheduleTree) (node : List Nat) : Except String (Option ScheduleTree) :=
  match root.get? node with
  | none => .error noSuchNode
  | some t =>
    match ((mappingFilters t).map (node ++ ·)).find? (mergeable I root) with
    | none => .ok none
    | some f => if f = node then .error nodeDestroyed else some <$> mergeAt root f

/-! ## What a merge does

A merge that succeeds puts the child's set and ids into its parent's and the child's first child in
its place (`mergeAt_eq_ok`), so it removes a node (`size_mergeAt`); a pass that merges makes one
merge inside the subtree (`mergeScan_eq_some`, `size_mergeScan`). -/

theorem mergeIds_eq_ok {ids fids r : List MappingId} (h : mergeIds ids fids = .ok r) : r = ids ++ fids := by
  induction fids generalizing ids with
  | nil => simp only [mergeIds, Except.ok.injEq] at h; simp [h]
  | cons id rest ih =>
    simp only [mergeIds] at h
    split at h
    · cases h
    · rw [ih h, List.append_assoc, List.singleton_append]

theorem mergeAt_eq_ok {root root' : ScheduleTree} {f : List Nat} (h : mergeAt root f = .ok root') :
    ∃ p i ps pids pcs fs fids c rest, f = p ++ [i] ∧ root.get? p = some (node (.mappingFilter ps pids) pcs) ∧
      pcs[i]? = some (node (.mappingFilter fs fids) (c :: rest)) ∧
      root' = root.replaceAt p (node (.mappingFilter (ps ∩ fs) (pids ++ fids)) (pcs.set i c)) := by
  unfold mergeAt at h
  split at h
  · rename_i i ps pids pcs fs fids c rest hi hp hf
    obtain ⟨ys, rfl⟩ := List.getLast?_eq_some_iff.mp hi
    rw [List.dropLast_concat] at hp
    rw [get?_append, hp, Option.some_bind, get?_cons] at hf
    obtain ⟨f', hf', hfeq⟩ := Option.bind_eq_some.mp hf
    rw [get?_nil, Option.some.injEq] at hfeq
    subst hfeq
    cases hm : mergeIds pids fids with
    | error e => rw [hm] at h; cases h
    | ok ids =>
      rw [hm, List.dropLast_concat] at h
      refine ⟨ys, i, ps, pids, pcs, fs, fids, c, rest, rfl, hp, hf', ?_⟩
      rw [← Except.ok.inj h, mergeIds_eq_ok hm]
  · cases h

theorem size_mergeAt {root root' : ScheduleTree} {f : List Nat} (h : mergeAt root f = .ok root') :
    root'.size < root.size := by
  obtain ⟨p, i, ps, pids, pcs, fs, fids, c, rest, -, hp, hf, rfl⟩ := mergeAt_eq_ok h
  have hsize := size_replaceAt hp (node (.mappingFilter (ps ∩ fs) (pids ++ fids)) (pcs.set i c))
  have hset := sizeList_set pcs i c hf
  simp only [size, sizeList] at hsize hset ⊢
  omega

theorem mergeScan_eq_some {I : Isl} {root root' : ScheduleTree} {node : List Nat}
    (h : mergeScan I root node = .ok (some root')) :
    ∃ t q, root.get? node = some t ∧ q ∈ mappingFilters t ∧ q ≠ [] ∧ mergeable I root (node ++ q) = true ∧
      mergeAt root (node ++ q) = .ok root' := by
  unfold mergeScan at h
  split at h
  · cases h
  · rename_i t ht
    split at h
    · cases h
    · rename_i f hf
      split at h
      · cases h
      · rename_i hne
        obtain ⟨q, hq, rfl⟩ := List.mem_map.mp (List.mem_of_find?_eq_some hf)
        cases hma : mergeAt root (node ++ q) with
        | error e => rw [hma] at h; cases h
        | ok r =>
          rw [hma] at h
          cases h
          exact ⟨t, q, ht, hq, fun hq0 => hne (by simp [hq0]), List.find?_some hf, hma⟩

theorem size_mergeScan {I : Isl} {root root' : ScheduleTree} {node : List Nat}
    (h : mergeScan I root node = .ok (some root')) : root'.size < root.size :=
  let ⟨_, _, _, _, _, _, hm⟩ := mergeScan_eq_some h
  size_mergeAt hm

/-- The `while (changed)` loop. -/
def mergeConsecutiveMappingFiltersLoop (I : Isl) (root : ScheduleTree) (node : List Nat) :
    Except String ScheduleTree :=
  match h : mergeScan I root node with
  | .ok (some root') => mergeConsecutiveMappingFiltersLoop I root' node
  | .ok none => .ok root
  | .error e => .error e
termination_by root.size
decreasing_by exact size_mergeScan h

/-- `mergeConsecutiveMappingFilters(root, node)`: the tree, and `node`. -/
def mergeConsecutiveMappingFilters (I : Isl) (root : ScheduleTree) (node : List Nat) :
    Except String (ScheduleTree × List Nat) :=
  match root.elem with
  | .domain _ | .extension _ => do
    let root ← mergeConsecutiveMappingFiltersLoop I root node
    pure (root, node)
  | _ => .error "Check failed: root->elemAs<ScheduleTreeElemDomain>() || root->elemAs<ScheduleTreeElemExtension>()"

theorem mergeConsecutiveMappingFiltersLoop_of_some {I : Isl} {root root' : ScheduleTree} {node : List Nat}
    (h : mergeScan I root node = .ok (some root')) :
    mergeConsecutiveMappingFiltersLoop I root node = mergeConsecutiveMappingFiltersLoop I root' node := by
  rw [mergeConsecutiveMappingFiltersLoop]
  split <;> simp_all

theorem mergeConsecutiveMappingFiltersLoop_of_none {I : Isl} {root : ScheduleTree} {node : List Nat}
    (h : mergeScan I root node = .ok none) : mergeConsecutiveMappingFiltersLoop I root node = .ok root := by
  rw [mergeConsecutiveMappingFiltersLoop]
  split <;> simp_all

theorem mergeConsecutiveMappingFiltersLoop_of_error {I : Isl} {root : ScheduleTree} {node : List Nat} {e : String}
    (h : mergeScan I root node = .error e) : mergeConsecutiveMappingFiltersLoop I root node = .error e := by
  rw [mergeConsecutiveMappingFiltersLoop]
  split <;> simp_all

theorem mergeConsecutiveMappingFiltersLoop_of_mergeConsecutiveMappingFilters {I : Isl} {root root' : ScheduleTree}
    {node node' : List Nat} (h : mergeConsecutiveMappingFilters I root node = .ok (root', node')) :
    mergeConsecutiveMappingFiltersLoop I root node = .ok root' ∧ node' = node := by
  have key : ∀ {x : Except String ScheduleTree}, (do let r ← x; pure (r, node)) = Except.ok (root', node') →
      x = .ok root' ∧ node' = node := by
    intro x hx
    cases x with
    | error e => cases hx
    | ok r => cases hx; exact ⟨rfl, rfl⟩
  unfold mergeConsecutiveMappingFilters at h
  split at h
  · exact key h
  · exact key h
  · cases h

/-! ## One merge

On a mapping filter whose only child is a mapping filter with a child and no id in common, a merge
succeeds, and keeps the child's first child only (`mergeAt_of_chain`). -/

theorem mergeIds_of_nodup {ids fids : List MappingId} (h : (ids ++ fids).Nodup) : mergeIds ids fids = .ok (ids ++ fids) := by
  induction fids generalizing ids with
  | nil => simp [mergeIds]
  | cons id rest ih =>
    have hid : id ∉ ids := fun hm => List.disjoint_of_nodup_append h hm (List.mem_cons_self _ _)
    rw [mergeIds, if_neg hid, ih (by simpa using h)]
    simp

/-- **The id check of a merge fails exactly when an id would be bound twice**: `mergeIds` returns the
parent's ids followed by the child's exactly when the child's ids are distinct and none is the
parent's, and fails otherwise. -/
theorem mergeIds_eq_ok_iff (ids fids : List MappingId) :
    mergeIds ids fids = .ok (ids ++ fids) ↔ fids.Nodup ∧ ∀ id ∈ fids, id ∉ ids := by
  induction fids generalizing ids with
  | nil => simp [mergeIds]
  | cons id rest ih =>
    rw [mergeIds]
    split_ifs with h
    · simp [h]
    · rw [show ids ++ id :: rest = ids ++ [id] ++ rest by simp, ih]
      simp only [List.nodup_cons, List.mem_cons, List.mem_append, List.not_mem_nil, or_false, not_or]
      constructor
      · rintro ⟨hn, hr⟩
        exact ⟨⟨fun hm => (hr id hm).2 rfl, hn⟩, fun x hx => hx.elim (· ▸ h) fun hx => (hr x hx).1⟩
      · rintro ⟨⟨hnr, hn⟩, hr⟩
        exact ⟨hn, fun x hx => ⟨hr x (.inr hx), fun hxi => hnr (hxi ▸ hx)⟩⟩

theorem mergeAt_of_chain {root c : ScheduleTree} {rest : List ScheduleTree} {p : List Nat} {ps fs : USet}
    {pids fids : List MappingId}
    (hp : root.get? p = some (node (.mappingFilter ps pids) [node (.mappingFilter fs fids) (c :: rest)]))
    (hids : (pids ++ fids).Nodup) :
    mergeAt root (p ++ [0]) = .ok (root.replaceAt p (node (.mappingFilter (ps ∩ fs) (pids ++ fids)) [c])) := by
  have hf : root.get? (p ++ [0]) = some (node (.mappingFilter fs fids) (c :: rest)) := by rw [get?_append, hp]; rfl
  simp only [mergeAt, List.getLast?_concat, List.dropLast_concat, hp, hf, mergeIds_of_nodup hids]
  rfl

/-! ## The mapping filters of a tree

`mappingFilters` lists exactly the positions of the mapping filters (`mem_mappingFilters`), and a
merge removes at least one of them (`length_mappingFilters_mergeAt`). -/

theorem not_nil_mem_mappingFiltersList : ∀ (j : Nat) (cs : List ScheduleTree), [] ∉ mappingFiltersList j cs
  | _, [] => List.not_mem_nil _
  | j, c :: cs => by
    rw [mappingFiltersList, List.mem_append, List.mem_map]
    rintro (⟨q, -, h⟩ | h)
    · exact List.cons_ne_nil _ _ h
    · exact not_nil_mem_mappingFiltersList (j + 1) cs h

theorem cons_mem_mappingFiltersList : ∀ (j : Nat) (cs : List ScheduleTree) (i : Nat) (q : List Nat),
    i :: q ∈ mappingFiltersList j cs ↔ j ≤ i ∧ ∃ c, cs[i - j]? = some c ∧ q ∈ mappingFilters c
  | j, [], i, q => by simp [mappingFiltersList]
  | j, c :: cs, i, q => by
    rw [mappingFiltersList, List.mem_append, List.mem_map, cons_mem_mappingFiltersList (j + 1) cs i q]
    constructor
    · rintro (⟨q', hq', h⟩ | ⟨hji, c', hc', hq⟩)
      · obtain ⟨rfl, rfl⟩ := List.cons.inj h
        exact ⟨le_refl _, c, by simp, hq'⟩
      · refine ⟨by omega, c', ?_, hq⟩
        rw [show i - j = (i - (j + 1)) + 1 by omega]
        simpa using hc'
    · rintro ⟨hji, c', hc', hq⟩
      rcases Nat.eq_or_lt_of_le hji with rfl | hlt
      · simp only [Nat.sub_self, List.getElem?_cons_zero, Option.some.injEq] at hc'
        subst hc'
        exact Or.inl ⟨q, hq, rfl⟩
      · rw [show i - j = (i - (j + 1)) + 1 by omega] at hc'
        exact Or.inr ⟨hlt, c', by simpa using hc', hq⟩

/-- **`mappingFilters` lists exactly the positions of the mapping filters.** -/
theorem mem_mappingFilters {t : ScheduleTree} {q : List Nat} :
    q ∈ mappingFilters t ↔ ∃ fs fids, t.elemAt q = some (.mappingFilter fs fids) := by
  induction q generalizing t with
  | nil =>
    obtain ⟨e, cs⟩ := t
    cases e <;> simp [mappingFilters, Elem.isMappingFilter, not_nil_mem_mappingFiltersList, elemAt]
  | cons i q ih =>
    obtain ⟨e, cs⟩ := t
    have hroot : i :: q ∉ (if e.isMappingFilter then [[]] else []) := by split <;> simp
    rw [mappingFilters, List.mem_append, or_iff_right hroot, cons_mem_mappingFiltersList]
    simp only [Nat.zero_le, Nat.sub_zero, true_and, elemAt, get?_cons]
    cases cs[i]? with
    | none => simp
    | some c => simpa [elemAt] using ih

theorem length_mappingFiltersList : ∀ (j : Nat) (cs : List ScheduleTree),
    (mappingFiltersList j cs).length = (cs.map fun c => (mappingFilters c).length).sum
  | _, [] => rfl
  | j, c :: cs => by
    rw [mappingFiltersList, List.length_append, List.length_map, length_mappingFiltersList (j + 1) cs, List.map_cons,
      List.sum_cons]

theorem length_mappingFilters_node (e : Elem) (cs : List ScheduleTree) :
    (mappingFilters (node e cs)).length =
      (if e.isMappingFilter then 1 else 0) + (cs.map fun c => (mappingFilters c).length).sum := by
  rw [mappingFilters, List.length_append, length_mappingFiltersList]
  split <;> rfl

theorem sum_map_modify {α : Type} (g : α → Nat) (f : α → α) :
    ∀ (l : List α) (i : Nat) {a : α}, l[i]? = some a → ((l.modify f i).map g).sum + g a = (l.map g).sum + g (f a)
  | [], _, _, h => by simp at h
  | b :: l, 0, a, h => by
    rw [List.getElem?_cons_zero, Option.some.injEq] at h
    subst h
    simp only [List.modify_zero_cons, List.map_cons, List.sum_cons]; omega
  | b :: l, i + 1, a, h => by
    rw [List.getElem?_cons_succ] at h
    have := sum_map_modify g f l i h
    simp only [List.modify_succ_cons, List.map_cons, List.sum_cons]; omega

theorem sum_map_set {α : Type} (g : α → Nat) :
    ∀ (l : List α) (i : Nat) {a : α} (b : α), l[i]? = some a → ((l.set i b).map g).sum + g a = (l.map g).sum + g b
  | [], _, _, _, h => by simp at h
  | c :: l, 0, a, b, h => by
    rw [List.getElem?_cons_zero, Option.some.injEq] at h
    subst h
    simp only [List.set_cons_zero, List.map_cons, List.sum_cons]; omega
  | c :: l, i + 1, a, b, h => by
    rw [List.getElem?_cons_succ] at h
    have := sum_map_set g l i b h
    simp only [List.set_cons_succ, List.map_cons, List.sum_cons]; omega

theorem length_mappingFilters_replaceAt {t old : ScheduleTree} {p : List Nat} (h : t.get? p = some old)
    (new : ScheduleTree) :
    (mappingFilters (t.replaceAt p new)).length + (mappingFilters old).length =
      (mappingFilters t).length + (mappingFilters new).length := by
  induction p generalizing t with
  | nil => rw [get?_nil, Option.some.injEq] at h; subst h; simp only [replaceAt_nil]; omega
  | cons i p ih =>
    obtain ⟨e, cs⟩ := t
    obtain ⟨c, hc, hp⟩ := Option.bind_eq_some.mp h
    have hmod := sum_map_modify (fun c => (mappingFilters c).length) (·.replaceAt p new) cs i hc
    have := ih hp
    simp only [replaceAt_cons, length_mappingFilters_node] at hmod ⊢
    omega

theorem length_mappingFilters_mergeAt {root root' : ScheduleTree} {f : List Nat} (h : mergeAt root f = .ok root') :
    (mappingFilters root').length < (mappingFilters root).length := by
  obtain ⟨p, i, ps, pids, pcs, fs, fids, c, rest, -, hp, hf, rfl⟩ := mergeAt_eq_ok h
  have hrep := length_mappingFilters_replaceAt hp (node (.mappingFilter (ps ∩ fs) (pids ++ fids)) (pcs.set i c))
  have hset := sum_map_set (fun c => (mappingFilters c).length) pcs i c hf
  simp only [length_mappingFilters_node, Elem.isMappingFilter, if_true, List.map_cons, List.sum_cons] at hrep hset
  omega

/-! ## One pass -/

theorem mergeScan_eq_none {I : Isl} {root : ScheduleTree} {node : List Nat} (h : mergeScan I root node = .ok none) :
    ∃ t, root.get? node = some t ∧ ∀ q ∈ mappingFilters t, mergeable I root (node ++ q) = false := by
  unfold mergeScan at h
  split at h
  · cases h
  · rename_i t ht
    split at h
    · rename_i hf
      exact ⟨t, ht, fun q hq => by simpa using List.find?_eq_none.mp hf (node ++ q) (List.mem_map_of_mem _ hq)⟩
    · split at h
      · cases h
      · revert h
        cases mergeAt root _ <;> intro h <;> cases h

/-- When the loop returns, its last pass found nothing to merge. -/
theorem mergeScan_of_loop_eq_ok {I : Isl} {root root' : ScheduleTree} {node : List Nat}
    (h : mergeConsecutiveMappingFiltersLoop I root node = .ok root') : mergeScan I root' node = .ok none := by
  suffices ∀ n root, root.size = n → mergeConsecutiveMappingFiltersLoop I root node = .ok root' →
      mergeScan I root' node = .ok none from this _ root rfl h
  intro n
  induction n using Nat.strong_induction_on with
  | _ n ih =>
    intro root hs h
    cases hm : mergeScan I root node with
    | error e => rw [mergeConsecutiveMappingFiltersLoop_of_error hm] at h; cases h
    | ok r =>
      cases r with
      | none => rw [mergeConsecutiveMappingFiltersLoop_of_none hm] at h; cases h; exact hm
      | some root1 =>
        rw [mergeConsecutiveMappingFiltersLoop_of_some hm] at h
        exact ih _ (hs ▸ size_mergeScan hm) root1 rfl h

/-- A merge leaves the root's element alone when the root is not a mapping filter: the parent it
rewrites lies below the root. -/
theorem elem_mergeAt {root root' : ScheduleTree} {f : List Nat} (h : mergeAt root f = .ok root')
    (hr : root.elem.isMappingFilter = false) : root'.elem = root.elem := by
  obtain ⟨p, i, ps, pids, pcs, fs, fids, c, rest, -, hp, -, rfl⟩ := mergeAt_eq_ok h
  cases p with
  | nil => rw [get?_nil, Option.some.injEq] at hp; rw [hp] at hr; cases hr
  | cons j p => exact elem_replaceAt_cons _ _ j p

/-- The loop leaves the root's element alone when the root is not a mapping filter. -/
theorem elem_mergeConsecutiveMappingFiltersLoop {I : Isl} {root root' : ScheduleTree} {node : List Nat}
    (h : mergeConsecutiveMappingFiltersLoop I root node = .ok root') (hr : root.elem.isMappingFilter = false) :
    root'.elem = root.elem := by
  induction root, node using mergeConsecutiveMappingFiltersLoop.induct I with
  | case1 root node root1 hs ih =>
    obtain ⟨_, _, -, -, -, -, hm⟩ := mergeScan_eq_some hs
    have h1 := elem_mergeAt hm hr
    rw [mergeConsecutiveMappingFiltersLoop_of_some hs] at h
    rw [ih h (h1 ▸ hr), h1]
  | case2 root node hs => rw [mergeConsecutiveMappingFiltersLoop_of_none hs] at h; cases h; rfl
  | case3 root node e hs => rw [mergeConsecutiveMappingFiltersLoop_of_error hs] at h; cases h

/-! ## The loop reaches its fixed point -/

/-- The merges the loop of `mergeConsecutiveMappingFilters` makes: its passes that merge a filter. -/
def mergeConsecutiveMappingFiltersMerges (I : Isl) (root : ScheduleTree) (node : List Nat) : Nat :=
  match h : mergeScan I root node with
  | .ok (some root') => mergeConsecutiveMappingFiltersMerges I root' node + 1
  | _ => 0
termination_by root.size
decreasing_by exact size_mergeScan h

theorem mergeConsecutiveMappingFiltersMerges_of_some {I : Isl} {root root' : ScheduleTree} {node : List Nat}
    (h : mergeScan I root node = .ok (some root')) :
    mergeConsecutiveMappingFiltersMerges I root node = mergeConsecutiveMappingFiltersMerges I root' node + 1 := by
  rw [mergeConsecutiveMappingFiltersMerges]
  split <;> simp_all

theorem mergeConsecutiveMappingFiltersMerges_of_not_some {I : Isl} {root : ScheduleTree} {node : List Nat}
    (h : ∀ root', mergeScan I root node ≠ .ok (some root')) : mergeConsecutiveMappingFiltersMerges I root node = 0 := by
  rw [mergeConsecutiveMappingFiltersMerges]
  split
  · exact absurd ‹_› (h _)
  · rfl

/-- **The loop of `mergeConsecutiveMappingFilters` merges as often as
`mergeConsecutiveMappingFiltersMerges` counts**: it goes through that many passes that merge, and then
stops at a pass that merges nothing, returning what that pass returns. -/
theorem mergeConsecutiveMappingFiltersMerges_counts_passes (I : Isl) (root : ScheduleTree) (node : List Nat) :
    ∃ passes : List ScheduleTree, passes.length = mergeConsecutiveMappingFiltersMerges I root node ∧
      List.Chain (fun r r' => mergeScan I r node = .ok (some r')) root passes ∧
      (∀ r', mergeScan I (passes.getLastD root) node ≠ .ok (some r')) ∧
      mergeConsecutiveMappingFiltersLoop I root node = mergeConsecutiveMappingFiltersLoop I (passes.getLastD root) node := by
  induction root, node using mergeConsecutiveMappingFiltersLoop.induct I with
  | case1 root node root1 hs ih =>
    obtain ⟨passes, hlen, hchain, hlast, hloop⟩ := ih
    refine ⟨root1 :: passes, ?_, .cons hs hchain, ?_, ?_⟩
    · rw [mergeConsecutiveMappingFiltersMerges_of_some hs, List.length_cons, hlen]
    · rwa [List.getLastD_cons]
    · rw [mergeConsecutiveMappingFiltersLoop_of_some hs, hloop, List.getLastD_cons]
  | case2 root node hs =>
    have hno : ∀ r', mergeScan I root node ≠ .ok (some r') := fun r' h => by rw [hs] at h; cases h
    exact ⟨[], (mergeConsecutiveMappingFiltersMerges_of_not_some hno).symm, .nil, hno, rfl⟩
  | case3 root node e hs =>
    have hno : ∀ r', mergeScan I root node ≠ .ok (some r') := fun r' h => by rw [hs] at h; cases h
    exact ⟨[], (mergeConsecutiveMappingFiltersMerges_of_not_some hno).symm, .nil, hno, rfl⟩

/-- Each merge removes a mapping filter, so the loop makes at most as many merges as there are. -/
theorem mergeConsecutiveMappingFiltersMerges_le (I : Isl) (root : ScheduleTree) (node : List Nat) :
    mergeConsecutiveMappingFiltersMerges I root node ≤ (mappingFilters root).length := by
  suffices ∀ n root, root.size = n → mergeConsecutiveMappingFiltersMerges I root node ≤ (mappingFilters root).length
    from this _ root rfl
  intro n
  induction n using Nat.strong_induction_on with
  | _ n ih =>
    intro root hs
    by_cases h : ∃ root', mergeScan I root node = .ok (some root')
    · obtain ⟨root', h⟩ := h
      obtain ⟨t, q, -, -, -, -, hma⟩ := mergeScan_eq_some h
      have := ih _ (hs ▸ size_mergeScan h) root' rfl
      have := length_mappingFilters_mergeAt hma
      rw [mergeConsecutiveMappingFiltersMerges_of_some h]
      omega
    · rw [mergeConsecutiveMappingFiltersMerges_of_not_some fun r hr => h ⟨r, hr⟩]
      exact Nat.zero_le _

/-- **The merge loop reaches its fixed point**: it makes at most as many merges as the tree has
mapping filters, and when `mergeConsecutiveMappingFilters` returns, no mapping filter of the subtree at
`node` has a mapping filter as parent whose set meets its own in a set with as many tuple spaces as
each. -/
theorem mergeConsecutiveMappingFilters_reaches_fixed_point (I : Isl) (root : ScheduleTree) (node : List Nat) :
    mergeConsecutiveMappingFiltersMerges I root node ≤ (mappingFilters root).length ∧
    ∀ root' node', mergeConsecutiveMappingFilters I root node = .ok (root', node') →
      ∀ f, node <+: f → ∀ ps pids fs fids, root'.elemAt f.dropLast = some (.mappingFilter ps pids) →
        root'.elemAt f = some (.mappingFilter fs fids) →
        ¬ (I.nSet (ps ∩ fs) = I.nSet ps ∧ I.nSet (ps ∩ fs) = I.nSet fs) := by
  refine ⟨mergeConsecutiveMappingFiltersMerges_le I root node, ?_⟩
  rintro root' node' h _ ⟨q, rfl⟩ ps pids fs fids hp hf hn
  obtain ⟨hloop, -⟩ := mergeConsecutiveMappingFiltersLoop_of_mergeConsecutiveMappingFilters h
  obtain ⟨t, ht, hnone⟩ := mergeScan_eq_none (mergeScan_of_loop_eq_ok hloop)
  have hq : q ∈ mappingFilters t := mem_mappingFilters.mpr
    ⟨fs, fids, by rw [← hf, elemAt, elemAt, get?_append, ht, Option.some_bind]⟩
  have hm := hnone q hq
  simp only [mergeable, hp, hf] at hm
  rw [hn.1, hn.1.symm.trans hn.2] at hm
  simp at hm

/-! ## An id bound twice -/

/-- The instance set `{S[0]}`. -/
def singleS0 : USet := {⟨"S", [0]⟩}

/-- Under the root, a mapping filter binding `a` whose children are a mapping filter binding `b` and
a sequence over another mapping filter binding `b`. -/
def mergeRoot : ScheduleTree :=
  node (.domain singleS0) [node (.mappingFilter singleS0 ["a"])
    [node (.mappingFilter singleS0 ["b"]) [node .sequence []],
     node .sequence [node (.mappingFilter singleS0 ["b"]) [node .sequence []]]]]

/-- **Merging binds an id twice on one path**: `mergeRoot` is well formed, and for every isl the
first mapping filter binding `b` merges into the one binding `a`, whose ids become `a, b` above the
second mapping filter binding `b`; the loop then stops, and the tree it returns is not well formed. -/
theorem mergeConsecutiveMappingFilters_binds_id_twice (I : Isl) :
    WellFormed mergeRoot ∧
      ∃ root', mergeConsecutiveMappingFilters I mergeRoot [] = .ok (root', []) ∧
        root'.path [0, 1, 0] = some [.domain singleS0, .mappingFilter (singleS0 ∩ singleS0) ["a", "b"],
          .sequence, .mappingFilter singleS0 ["b"]] ∧
        ¬ WellFormed root' := by
  let merged := mergeRoot.replaceAt [0] (node (.mappingFilter (singleS0 ∩ singleS0) ["a", "b"])
    [node .sequence [], node .sequence [node (.mappingFilter singleS0 ["b"]) [node .sequence []]]])
  have hm : mergeable I mergeRoot [0, 0] = true := by
    simp [mergeable, mergeRoot, elemAt, Set.inter_self]
  have h1 : mergeScan I mergeRoot [] = .ok (some merged) := by
    simp only [mergeScan, get?_nil, List.nil_append, List.map_id']
    rw [show mappingFilters mergeRoot = [[0], [0, 0], [0, 1, 0]] from rfl,
      List.find?_cons_of_neg _ (by rw [show mergeable I mergeRoot [0] = false from rfl]; decide),
      List.find?_cons_of_pos _ hm]
    rfl
  have h2 : mergeScan I merged [] = .ok none := rfl
  have hpath : merged.path [0, 1, 0] = some [.domain singleS0, .mappingFilter (singleS0 ∩ singleS0) ["a", "b"],
      .sequence, .mappingFilter singleS0 ["b"]] := rfl
  refine ⟨wellFormed_of_allPathsOk rfl (by decide), merged, ?_, hpath, fun hwf => ?_⟩
  · show (do let root ← mergeConsecutiveMappingFiltersLoop I mergeRoot []; pure (root, [])) = _
    rw [mergeConsecutiveMappingFiltersLoop_of_some h1, mergeConsecutiveMappingFiltersLoop_of_none h2]
    rfl
  · exact absurd (hwf.paths _ _ hpath) (by decide)

/-! ## Children left behind -/

/-- Under the root, a mapping filter binding `a` over a mapping filter binding `b` whose children are a
leaf and a filter over a leaf. -/
def dropRoot : ScheduleTree :=
  node (.domain singleS0) [node (.mappingFilter singleS0 ["a"])
    [node (.mappingFilter singleS0 ["b"]) [node .sequence [], node (.filter singleS0) [node .sequence []]]]]

/-- **A merge deletes the merged filter's other children**: for every isl, the mapping filter binding `b`
of `dropRoot` merges into the one binding `a`, and only its first child takes its place; the filter, its
second child, is in no node of the tree the loop returns. -/
theorem mergeConsecutiveMappingFilters_drops_children (I : Isl) :
    WellFormed dropRoot ∧ dropRoot.elemAt [0, 0, 1] = some (.filter singleS0) ∧
      ∃ root', mergeConsecutiveMappingFilters I dropRoot [] = .ok (root', []) ∧
        root' = node (.domain singleS0) [node (.mappingFilter (singleS0 ∩ singleS0) ["a", "b"]) [node .sequence []]] ∧
        ∀ p, root'.elemAt p ≠ some (.filter singleS0) := by
  let merged := node (.domain singleS0) [node (.mappingFilter (singleS0 ∩ singleS0) ["a", "b"]) [node .sequence []]]
  have hm : mergeable I dropRoot [0, 0] = true := by
    simp [mergeable, dropRoot, elemAt, Set.inter_self]
  have h1 : mergeScan I dropRoot [] = .ok (some merged) := by
    simp only [mergeScan, get?_nil, List.nil_append, List.map_id']
    rw [show mappingFilters dropRoot = [[0], [0, 0]] from rfl,
      List.find?_cons_of_neg _ (by rw [show mergeable I dropRoot [0] = false from rfl]; decide),
      List.find?_cons_of_pos _ hm]
    rfl
  have h2 : mergeScan I merged [] = .ok none := rfl
  refine ⟨wellFormed_of_allPathsOk rfl (by decide), rfl, merged, ?_, rfl, ?_⟩
  · show (do let root ← mergeConsecutiveMappingFiltersLoop I dropRoot []; pure (root, [])) = _
    rw [mergeConsecutiveMappingFiltersLoop_of_some h1, mergeConsecutiveMappingFiltersLoop_of_none h2]
    rfl
  · rintro (_ | ⟨_ | i, _ | ⟨_ | j, _ | ⟨k, p⟩⟩⟩) h <;> simp [merged, elemAt] at h

/-! ## A node merged into its parent -/

/-- Under the root, a mapping filter binding `a` over a mapping filter binding `b` over a leaf. -/
def nodeMergeRoot : ScheduleTree :=
  node (.domain singleS0)
    [node (.mappingFilter singleS0 ["a"]) [node (.mappingFilter singleS0 ["b"]) [node .sequence []]]]

/-- **The loop merges `node` itself into its parent**: `collect` lists `node`, the mapping filter
binding `b`, first, and for every isl it merges into its parent, so the first pass rewrites the parent,
outside `node`'s subtree, and puts `node`'s child in `node`'s place; the source then collects from the
freed `node`, which the model reports as `nodeDestroyed`. -/
theorem mergeConsecutiveMappingFilters_merges_node_away (I : Isl) :
    (mappingFilters (node (.mappingFilter singleS0 ["b"]) [node .sequence []])).head? = some [] ∧
    mergeable I nodeMergeRoot [0, 0] = true ∧
    mergeAt nodeMergeRoot [0, 0] =
      .ok (node (.domain singleS0) [node (.mappingFilter (singleS0 ∩ singleS0) ["a", "b"]) [node .sequence []]]) ∧
    mergeConsecutiveMappingFilters I nodeMergeRoot [0, 0] = .error nodeDestroyed := by
  have hm : mergeable I nodeMergeRoot [0, 0] = true := by
    simp [mergeable, nodeMergeRoot, elemAt, Set.inter_self]
  have hs : mergeScan I nodeMergeRoot [0, 0] = .error nodeDestroyed := by
    simp only [mergeScan,
      show nodeMergeRoot.get? [0, 0] = some (node (.mappingFilter singleS0 ["b"]) [node .sequence []]) from rfl,
      show mappingFilters (node (.mappingFilter singleS0 ["b"]) [node .sequence []]) = [[]] from rfl,
      List.map_cons, List.map_nil, List.append_nil, List.find?_cons_of_pos _ hm, if_true]
  refine ⟨rfl, hm, rfl, ?_⟩
  show (do let root ← mergeConsecutiveMappingFiltersLoop I nodeMergeRoot [0, 0]; pure (root, [0, 0])) = _
  rw [mergeConsecutiveMappingFiltersLoop_of_error hs]
  rfl


/-! ## Running the merge again -/

/-- **The merge is idempotent**: run again on the tree it returned, at the node it returned,
`mergeConsecutiveMappingFilters` finds nothing to merge and returns the same tree and node. -/
theorem mergeConsecutiveMappingFilters_idempotent {I : Isl} {root root' : ScheduleTree} {node node' : List Nat}
    (h : mergeConsecutiveMappingFilters I root node = .ok (root', node')) :
    mergeConsecutiveMappingFilters I root' node' = .ok (root', node') := by
  obtain ⟨hloop, rfl⟩ := mergeConsecutiveMappingFiltersLoop_of_mergeConsecutiveMappingFilters h
  have hnone := mergeConsecutiveMappingFiltersLoop_of_none (mergeScan_of_loop_eq_ok hloop)
  unfold mergeConsecutiveMappingFilters at h ⊢
  split at h
  case h_3 => cases h
  all_goals
    rename_i hr
    rw [elem_mergeConsecutiveMappingFiltersLoop hloop (by rw [hr]; rfl), hr]
    simp only [hnone]
    rfl

theorem mergeConsecutiveMappingFilters_idempotent_nodeMergeRoot :
    ∃ root' node', mergeConsecutiveMappingFilters Isl.plain nodeMergeRoot [] = .ok (root', node') ∧
      mergeConsecutiveMappingFilters Isl.plain root' node' = .ok (root', node') :=
  have h1 : mergeScan Isl.plain nodeMergeRoot [] =
      .ok (some (node (.domain singleS0) [node (.mappingFilter (singleS0 ∩ singleS0) ["a", "b"]) [node .sequence []]])) :=
    rfl
  have h2 : mergeScan Isl.plain
      (node (.domain singleS0) [node (.mappingFilter (singleS0 ∩ singleS0) ["a", "b"]) [node .sequence []]]) [] =
      .ok none := rfl
  have h : mergeConsecutiveMappingFilters Isl.plain nodeMergeRoot [] = .ok (_, []) := by
    show (do let root ← mergeConsecutiveMappingFiltersLoop Isl.plain nodeMergeRoot []; pure (root, [])) = _
    rw [mergeConsecutiveMappingFiltersLoop_of_some h1, mergeConsecutiveMappingFiltersLoop_of_none h2]
    rfl
  ⟨_, _, h, mergeConsecutiveMappingFilters_idempotent h⟩

end Polyhedral
