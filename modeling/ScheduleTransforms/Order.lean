import ScheduleTransforms.Insert
/-!
# Order — splitting the instances at a node into two ordered copies

`orderBefore` (and `orderAfter`) puts in a node's place a sequence of two filters, on a set `F` and
on the rest of the active points there, each over a copy of the node's subtree simplified by `gist`
against its own filter.  `gist` replaces band functions and filter sets by what isl's `gist` makes of
them, drops the children of a filter it finds empty, and drops the filters of a sequence it finds
empty.

`gistPos` follows a node's position through `gist`, whose copy of the node is the `gist` of the
node's subtree.  In its context, `gist` is exact: an instance of the context passes the filters down
to a node exactly when the node keeps a copy and the instance passes the simplified filters down to
it, the bands on the way give it the same coordinates, and a sequence keeps the order of the children
it keeps (`gist_exact_on_context`).  Without an extension inside the subtree, the
instances active at a copy of a node are those active at the node that are in the copy's filter set,
and an instance of that set that passes the node keeps a copy of it (`order_copies_faithful`).  An
extension inside the subtree adds its instances under both copies, whatever the filters let through:
an instance of the root domain can then be active at both copies of a node
(`orderBefore_extension_reaches_both`), and with an isl that finds empty what is empty, a label it adds
can lose both copies of a filter on it (`orderBefore_drops_extension_label`).  The same isl drops from
a copy a filter disjoint from the copy's set, and with it the copy of that filter for an instance
active there but outside the filter's own set (`orderBefore_drops_filter_outside_own_set`).
-/
namespace Polyhedral

open ScheduleTree

/-- A filter whose simplified set isl finds empty. -/
def Elem.emptyFilter (I : Isl) (e : Elem) : Bool :=
  (e.filterSet?.map I.isEmpty).getD false

/-- The element as `gist` leaves it: band functions and filter sets simplified in `context`. -/
def Elem.gist (I : Isl) (context : USet) : Elem → Elem
  | .band b => .band { b with mupa := b.mupa.map (I.gistUpa · context) }
  | .filter s => .filter (I.gist s context)
  | .mappingFilter s ids => .mappingFilter (I.gist s context) ids
  | e => e

mutual
/-- `gist(tree, context)`. -/
def gist (I : Isl) (context : USet) : ScheduleTree → ScheduleTree
  | node e cs =>
    let e' := e.gist I context
    let cs' := if e'.emptyFilter I then [] else gistList I context cs
    node e' (if e'.isSequence then cs'.filter (!·.elem.emptyFilter I) else cs')
/-- `gist` of each child. -/
def gistList (I : Isl) (context : USet) : List ScheduleTree → List ScheduleTree
  | [] => []
  | c :: cs => gist I context c :: gistList I context cs
end

/-- `gistedFilter(filter, child)`. -/
def gistedFilter (I : Isl) (filter : USet) (child : ScheduleTree) : ScheduleTree :=
  node (.filter filter) [gist I filter child]

/-- The shared body of `orderBefore` and `orderAfter`: the sequence of the two filtered copies of the
node at `tree`, ordered by `order` from the copy on `filter` and the copy on the rest. -/
def orderNear (I : Isl) (root : ScheduleTree) (tree : List Nat) (filter : USet)
    (order : ScheduleTree → ScheduleTree → List ScheduleTree) : Except String ScheduleTree := do
  let other := (← activeDomainPoints I root tree) \ filter
  match root.get? tree with
  | none => .error noSuchNode
  | some t =>
    if tree = [] then .error rootHasNoParent
    else .ok (root.replaceAt tree (node .sequence (order (gistedFilter I filter t) (gistedFilter I other t))))

/-- `orderBefore(root, tree, filter)`. -/
def orderBefore (I : Isl) (root : ScheduleTree) (tree : List Nat) (filter : USet) : Except String ScheduleTree :=
  orderNear I root tree filter fun first rest => [first, rest]

/-- `orderAfter(root, tree, filter)`. -/
def orderAfter (I : Isl) (root : ScheduleTree) (tree : List Nat) (filter : USet) : Except String ScheduleTree :=
  orderNear I root tree filter fun first rest => [rest, first]

/-! ## Where `gist` leaves a node

`gistPos` follows a position through `gist`: it is dropped under a filter found empty, and a
sequence's child moves left past the dropped filters before it. -/

/-- The position in `gist I context t` of the node at `q` in `t`, or `none` when `gist` drops it. -/
def gistPos (I : Isl) (context : USet) : ScheduleTree → List Nat → Option (List Nat)
  | _, [] => some []
  | node e cs, i :: q =>
    if (e.gist I context).emptyFilter I then none
    else cs[i]?.bind fun c =>
      if (e.gist I context).isSequence then
        if (gist I context c).elem.emptyFilter I then none
        else (gistPos I context c q).map
          ((((cs.map (gist I context)).take i).filter (!·.elem.emptyFilter I)).length :: ·)
      else (gistPos I context c q).map (i :: ·)

section Gist

variable {I : Isl} {C : USet}

@[simp] theorem gistPos_nil (t : ScheduleTree) : gistPos I C t [] = some [] := by cases t; rfl

theorem gistList_eq_map (cs : List ScheduleTree) : gistList I C cs = cs.map (gist I C) := by
  induction cs with
  | nil => rw [gistList]; rfl
  | cons c cs ih => rw [gistList, ih]; rfl

theorem elem_gist (t : ScheduleTree) : (gist I C t).elem = t.elem.gist I C := by
  cases t; rw [gist]; rfl

theorem gist_node_of_emptyFilter_eq_false {e : Elem} (cs : List ScheduleTree) (h : (e.gist I C).emptyFilter I = false) :
    gist I C (node e cs) = node (e.gist I C)
      (if (e.gist I C).isSequence then (cs.map (gist I C)).filter (!·.elem.emptyFilter I) else cs.map (gist I C)) := by
  rw [gist]; simp only [h, gistList_eq_map]; rfl

/-- `gist` leaves an extension as it is, and makes no extension of anything else. -/
theorem gist_ne_extension {e : Elem} (he : ∀ ext, e ≠ .extension ext) (ext : ExtMap) : e.gist I C ≠ .extension ext := by
  cases e <;> simp_all [Elem.gist]

/-- In `C`, a filter `gist` simplifies lets through what it let through before. -/
theorem passes_map_gist {x : Inst} (hx : x ∈ C) (es : List Elem) :
    Passes x (es.map (Elem.gist I C)) ↔ Passes x es := by
  induction es with
  | nil => simp
  | cons e es ih =>
    rw [List.map_cons, passes_cons, passes_cons, ih]
    refine and_congr_left' ?_
    cases e <;> simp [Elem.gist, Elem.filterSet?, I.mem_gist _ _ _ hx]

/-- A filter that lets an instance of `C` through is not found empty once simplified in `C`. -/
theorem emptyFilter_gist {x : Inst} (hx : x ∈ C) {e : Elem} (he : ∀ s, e.filterSet? = some s → x ∈ s) :
    (e.gist I C).emptyFilter I = false := by
  have key : ∀ s, x ∈ s → I.isEmpty (I.gist s C) = false := fun s hs =>
    Bool.eq_false_iff.mpr fun h => by simpa [I.eq_empty_of_isEmpty _ h] using (I.mem_gist s C x hx).mpr hs
  cases e with
  | filter s => exact key s (he s rfl)
  | mappingFilter s ids => exact key s (he s rfl)
  | _ => rfl

/-- The `k`-th kept element of a list is the one at `i` when `k` elements before `i` are kept. -/
theorem getElem?_filter_length_take {α : Type} (p : α → Bool) {l : List α} {i : Nat} {a : α}
    (h : l[i]? = some a) (ha : p a = true) : (l.filter p)[((l.take i).filter p).length]? = some a := by
  obtain ⟨hi, rfl⟩ := List.getElem?_eq_some_iff.mp h
  have hsplit : l.filter p = (l.take i).filter p ++ l[i] :: (l.drop (i + 1)).filter p := by
    rw [← List.filter_cons_of_pos ha, ← List.drop_eq_getElem_cons hi, ← List.filter_append, List.take_append_drop]
  rw [hsplit, List.getElem?_append_right (le_refl _), Nat.sub_self, List.getElem?_cons_zero]

/-- **The copy of a node has the simplified elements of the node's ancestors above it.** -/
theorem ancestors_gist {t : ScheduleTree} {q q' : List Nat} (h : gistPos I C t q = some q') :
    (gist I C t).ancestors q' = (t.ancestors q).map (List.map (Elem.gist I C)) := by
  induction q generalizing t q' with
  | nil => cases t; simp_all
  | cons i q ih =>
    obtain ⟨e, cs⟩ := t
    simp only [gistPos] at h
    split at h
    · cases h
    rename_i hne
    obtain ⟨c, hc, h⟩ := Option.bind_eq_some.mp h
    rw [gist_node_of_emptyFilter_eq_false cs (Bool.eq_false_iff.mpr hne), ancestors_cons, hc, Option.some_bind,
      Option.map_map]
    split at h
    · rename_i hseq
      split at h
      · cases h
      rename_i hkeep
      obtain ⟨q1, hq1, rfl⟩ := Option.map_eq_some'.mp h
      rw [if_pos hseq, ancestors_cons, getElem?_filter_length_take _ (by rw [List.getElem?_map, hc]; rfl)
        (by simpa using hkeep), Option.some_bind, ih hq1, Option.map_map]
      rfl
    · obtain ⟨q1, hq1, rfl⟩ := Option.map_eq_some'.mp h
      rw [if_neg ‹_›, ancestors_cons, List.getElem?_map, hc, Option.map_some', Option.some_bind, ih hq1,
        Option.map_map]
      rfl

/-- **`gist` in `C` keeps every node some instance of `C` passes.** -/
theorem gistPos_isSome {x : Inst} (hx : x ∈ C) {t : ScheduleTree} {q : List Nat} {es : List Elem}
    (h : t.path q = some es) (hes : Passes x es) : ∃ q', gistPos I C t q = some q' := by
  induction q generalizing t es with
  | nil => exact ⟨[], gistPos_nil t⟩
  | cons i q ih =>
    obtain ⟨e, cs⟩ := t
    rw [path_cons] at h
    obtain ⟨c, hc, h⟩ := Option.bind_eq_some.mp h
    obtain ⟨es, hpath, rfl⟩ := Option.map_eq_some'.mp h
    rw [passes_cons] at hes
    obtain ⟨q1, hq1⟩ := ih hpath hes.2
    have hkeep : (gist I C c).elem.emptyFilter I = false := by
      rw [elem_gist]; exact emptyFilter_gist hx (hes.2 _ (elem_mem_path hpath))
    simp only [gistPos, emptyFilter_gist hx hes.1, hc, Option.some_bind, hkeep, hq1, Option.map_some',
      Bool.false_eq_true, if_false]
    split <;> exact ⟨_, rfl⟩

/-- **The copy of a node is the `gist` of its subtree.** -/
theorem get?_gist {t : ScheduleTree} {q q' : List Nat} (h : gistPos I C t q = some q') :
    (gist I C t).get? q' = (t.get? q).map (gist I C) := by
  induction q generalizing t q' with
  | nil => rw [gistPos_nil, Option.some.injEq] at h; subst h; simp
  | cons i q ih =>
    obtain ⟨e, cs⟩ := t
    simp only [gistPos] at h
    split at h
    · cases h
    rename_i hne
    obtain ⟨c, hc, h⟩ := Option.bind_eq_some.mp h
    rw [gist_node_of_emptyFilter_eq_false cs (Bool.eq_false_iff.mpr hne), get?_cons, hc, Option.some_bind]
    split at h
    · rename_i hseq
      split at h
      · cases h
      rename_i hkeep
      obtain ⟨q1, hq1, rfl⟩ := Option.map_eq_some'.mp h
      rw [if_pos hseq, get?_cons, getElem?_filter_length_take _ (by rw [List.getElem?_map, hc]; rfl)
        (by simpa using hkeep), Option.some_bind, ih hq1]
    · obtain ⟨q1, hq1, rfl⟩ := Option.map_eq_some'.mp h
      rw [if_neg ‹_›, get?_cons, List.getElem?_map, hc, Option.map_some', Option.some_bind, ih hq1]

/-- The path down to the copy of a node holds the simplified elements of the path down to the node. -/
theorem path_gist {t : ScheduleTree} {q q' : List Nat} (h : gistPos I C t q = some q') :
    (gist I C t).path q' = (t.path q).map (List.map (Elem.gist I C)) := by
  have he : (gist I C t).elemAt q' = (t.elemAt q).map (Elem.gist I C) := by
    rw [elemAt, elemAt, get?_gist h]
    cases t.get? q <;> simp [elem_gist]
  rw [path, path, ancestors_gist h, he]
  cases t.ancestors q <;> cases t.elemAt q <;> simp

/-- A band function simplified in `C` gives every instance of `C` the coordinates it gave before. -/
theorem eval_map_gistUpa {x : Inst} (hx : x ∈ C) (m : Mupa) : Mupa.eval (m.map (I.gistUpa · C)) x = m.eval x := by
  induction m with
  | nil => rfl
  | cons f m ih => rw [List.map_cons, Mupa.eval_cons, Mupa.eval_cons, ih, I.gistUpa_eq f C x hx]

theorem gist_sequence (cs : List ScheduleTree) :
    gist I C (node .sequence cs) = node .sequence ((cs.map (gist I C)).filter (!·.elem.emptyFilter I)) := by
  rw [gist_node_of_emptyFilter_eq_false cs (rfl : (Elem.sequence.gist I C).emptyFilter I = false)]; rfl

end Gist

/-- **`gist` is exact on its context**: for an instance `x` of the context, `x` passes the filters on
the path down to a node of `t` exactly when the node keeps a copy in `gist I C t` and `x` passes the
simplified filters down to the copy; the copy of a node is the `gist` of its subtree, and a band on
the way gives `x` the same coordinates as before; and the children a sequence keeps stay in their
order. -/
theorem gist_exact_on_context (I : Isl) (C : USet) (t : ScheduleTree) {x : Inst} (hx : x ∈ C) :
    (∀ q es, t.path q = some es →
      (Passes x es ↔ ∃ q' es', gistPos I C t q = some q' ∧ (gist I C t).path q' = some es' ∧ Passes x es')) ∧
    (∀ q q', gistPos I C t q = some q' → (gist I C t).get? q' = (t.get? q).map (gist I C) ∧
      ∀ es es', t.path q = some es → (gist I C t).path q' = some es' → ∀ (k : Nat) (b : Band), es[k]? = some (.band b) →
        ∃ b' : Band, es'[k]? = some (.band b') ∧ b'.mupa.eval x = b.mupa.eval x) ∧
    (∀ q q' cs, gistPos I C t q = some q' → t.get? q = some (node .sequence cs) →
      ∃ cs', (gist I C t).get? q' = some (node .sequence cs') ∧ cs'.Sublist (cs.map (gist I C))) := by
  refine ⟨fun q es hq => ⟨fun hp => ?_, ?_⟩, fun q q' h => ⟨get?_gist h, ?_⟩, fun q q' cs h hs => ?_⟩
  · obtain ⟨q', hq'⟩ := gistPos_isSome hx hq hp
    exact ⟨q', _, hq', by rw [path_gist hq', hq]; rfl, (passes_map_gist hx es).mpr hp⟩
  · rintro ⟨q', es', hq', hes', hp⟩
    rw [path_gist hq', hq, Option.map_some', Option.some.injEq] at hes'
    exact (passes_map_gist hx es).mp (hes' ▸ hp)
  · intro es es' hes hes' k b hk
    rw [path_gist h, hes, Option.map_some', Option.some.injEq] at hes'
    subst hes'
    exact ⟨_, by rw [List.getElem?_map, hk]; rfl, eval_map_gistUpa hx b.mupa⟩
  · exact ⟨_, by rw [get?_gist h, hs, Option.map_some', gist_sequence], List.filter_sublist _⟩

/-- `gist` in `{S[0]}` of a sequence of a filter on `S[0]` and an empty filter, at `S[0]`. -/
theorem gist_exact_on_context_sequence :
    let t := node .sequence [node (.filter {⟨"S", [0]⟩}) [node .sequence []], node (.filter ∅) []]
    let C : USet := {⟨"S", [0]⟩}
    let x : Inst := ⟨"S", [0]⟩
    x ∈ C ∧
    (∀ q es, t.path q = some es →
      (Passes x es ↔ ∃ q' es', gistPos Isl.plain C t q = some q' ∧ (gist Isl.plain C t).path q' = some es' ∧
        Passes x es')) ∧
    (∀ q q', gistPos Isl.plain C t q = some q' → (gist Isl.plain C t).get? q' = (t.get? q).map (gist Isl.plain C) ∧
      ∀ es es', t.path q = some es → (gist Isl.plain C t).path q' = some es' → ∀ (k : Nat) (b : Band), es[k]? = some (.band b) →
        ∃ b' : Band, es'[k]? = some (.band b') ∧ b'.mupa.eval x = b.mupa.eval x) ∧
    (∀ q q' cs, gistPos Isl.plain C t q = some q' → t.get? q = some (node .sequence cs) →
      ∃ cs', (gist Isl.plain C t).get? q' = some (node .sequence cs') ∧ cs'.Sublist (cs.map (gist Isl.plain C))) :=
  ⟨Set.mem_singleton _, gist_exact_on_context Isl.plain _ _ (Set.mem_singleton _)⟩

/-! ## The two copies

Without an extension inside the subtree, the active points at a node of a copy are those at the node it
copies that are in the copy's filter set, and every instance of that set that passes a node is active
at a copy of it: each instance that passes a node reaches exactly one of the two copies. -/

/-- The copy at `b` in `root'`, under a filter on `G`, of the subtree `t` at `n` in `root`. -/
structure FaithfulCopy (I : Isl) (root root' : ScheduleTree) (n b : List Nat) (G : USet) (t : ScheduleTree) :
    Prop where
  /-- The active points at a copy are those at the node it copies, in `G`. -/
  within : ∀ q q' B, activeDomainPoints I root (n ++ q) = .ok B → gistPos I G t q = some q' →
    activeDomainPoints I root' (b ++ q') = .ok (B ∩ G)
  /-- An instance of `G` active at a node and in its filter set keeps a copy of the node. -/
  survives : ∀ q B, activeDomainPoints I root (n ++ q) = .ok B → ∀ x ∈ B, x ∈ G →
    (∀ s, (t.elemAt q).bind Elem.filterSet? = some s → x ∈ s) → ∃ q', gistPos I G t q = some q'

theorem noExtension_of_ancestors {t : ScheduleTree} (hext : ∀ q ext, t.elemAt q ≠ some (.extension ext))
    {q : List Nat} {es : List Elem} (h : t.ancestors q = some es) : ∀ e ∈ es, ∀ ext, e ≠ .extension ext := by
  rintro e he ext rfl
  obtain ⟨p, hp⟩ := exists_elemAt_of_mem_ancestors h he
  exact hext p ext hp

section Copy

variable {I : Isl} {D G : USet} {cs : List ScheduleTree} {n : List Nat} {t : ScheduleTree}

/-- **A filter on `G` over the `gist` of the subtree, anywhere in a sequence at its place, is a faithful
copy of it.** -/
theorem faithfulCopy_of_getElem? (hn : n ≠ []) (ht : (node (.domain D) cs).get? n = some t)
    (hext : ∀ q ext, t.elemAt q ≠ some (.extension ext)) {L : List ScheduleTree} {k : Nat}
    (hL : L[k]? = some (gistedFilter I G t)) :
    FaithfulCopy I (node (.domain D) cs) ((node (.domain D) cs).replaceAt n (node .sequence L)) n (n ++ [k, 0]) G t := by
  obtain _ | ⟨i, p⟩ := n
  · exact absurd rfl hn
  refine ⟨fun q q' B hB hq' => ?_, fun q B hB x hx hxG hxd => ?_⟩
  all_goals
    obtain ⟨ancs, hancs, rfl⟩ := exists_ancestors_of_activeDomainPoints I hB
    rw [ancestors_append ht] at hancs
    obtain ⟨A0, hA0, h2⟩ := Option.bind_eq_some.mp hancs
    obtain ⟨as, has, rfl⟩ := Option.map_eq_some'.mp h2
  · have hanc : ((node (.domain D) cs).replaceAt (i :: p) (node .sequence L)).ancestors (i :: p ++ [k, 0] ++ q') =
        some (A0 ++ (.sequence :: .filter G :: as.map (Elem.gist I G))) := by
      rw [List.append_assoc, ancestors_replaceAt_append ht, hA0, Option.some_bind]
      simp [hL, gistedFilter, ancestors_gist hq', has]
    rw [replaceAt_cons] at hanc ⊢
    rw [activeDomainPoints_eq_walk I hanc]
    congr 1
    ext x
    have hno := noExtension_of_ancestors hext has
    have hno' : ∀ e ∈ Elem.sequence :: Elem.filter G :: as.map (Elem.gist I G), ∀ ext, e ≠ .extension ext := by
      simp only [List.mem_cons, List.mem_map]
      rintro e (rfl | rfl | ⟨e, he, rfl⟩) ext
      exacts [Elem.noConfusion, Elem.noConfusion, gist_ne_extension (hno e he) ext]
    simp only [walk_append, mem_walk_active_iff hno', mem_walk_active_iff hno, passes_cons, Elem.filterSet?,
      Set.mem_inter_iff]
    constructor
    · rintro ⟨h1, -, hG, hp⟩
      exact ⟨⟨h1, (passes_map_gist (hG _ rfl) as).mp hp⟩, hG _ rfl⟩
    · rintro ⟨⟨h1, hp⟩, hG⟩
      exact ⟨h1, by simp, by simpa using hG, (passes_map_gist hG as).mpr hp⟩
  · obtain ⟨s, hs⟩ := Option.isSome_iff_exists.mp (by rw [← ancestors_isSome, has]; rfl : (t.get? q).isSome)
    rw [walk_append, mem_walk_active_iff (noExtension_of_ancestors hext has)] at hx
    have hd : ∀ s', s.elem.filterSet? = some s' → x ∈ s' := by simpa [elemAt, hs] using hxd
    exact gistPos_isSome hxG (by simp [path, has, elemAt, hs])
      ((passes_append _ _ _).mpr ⟨hx.2, (passes_cons _ _ _).mpr ⟨hd, passes_nil x⟩⟩)

/-- Without an extension inside the subtree, a node of it sees no instance its root does not. -/
theorem activeDomainPoints_subset_of_noExtension (ht : (node (.domain D) cs).get? n = some t)
    (hext : ∀ q ext, t.elemAt q ≠ some (.extension ext)) {A : USet}
    (hA : activeDomainPoints I (node (.domain D) cs) n = .ok A) {q : List Nat} {B : USet}
    (hB : activeDomainPoints I (node (.domain D) cs) (n ++ q) = .ok B) : B ⊆ A := by
  obtain ⟨ancs, hancs, rfl⟩ := exists_ancestors_of_activeDomainPoints I hB
  rw [ancestors_append ht] at hancs
  obtain ⟨A0, hA0, h2⟩ := Option.bind_eq_some.mp hancs
  obtain ⟨as, has, rfl⟩ := Option.map_eq_some'.mp h2
  rw [activeDomainPoints_eq_walk I hA0, Except.ok.injEq] at hA
  intro x hx
  rw [walk_append, mem_walk_active_iff (noExtension_of_ancestors hext has)] at hx
  exact hA ▸ hx.1

theorem orderNear_eq (hn : n ≠ []) (ht : (node (.domain D) cs).get? n = some t) {A F : USet}
    (hA : activeDomainPoints I (node (.domain D) cs) n = .ok A)
    (order : ScheduleTree → ScheduleTree → List ScheduleTree) :
    orderNear I (node (.domain D) cs) n F order = .ok ((node (.domain D) cs).replaceAt n
      (node .sequence (order (gistedFilter I F t) (gistedFilter I (A \ F) t)))) := by
  simp only [orderNear, hA, ht, hn, if_false]
  rfl

end Copy

/-- **Without an extension inside the subtree, both copies are faithful**: every node of the subtree
sees only instances active at its root, `A`; `orderBefore` puts at `n` a sequence of the filter on `F`
over the copy simplified in `F` and the filter on the rest `A \ F` over the copy simplified in it, and
`orderAfter` the same two the other way round; the active points at a node of either copy are those
at the node it copies within the copy's filter set, and an instance of that set that passes a node
keeps a copy of it. -/
theorem order_copies_faithful (I : Isl) (D : USet) (cs : List ScheduleTree) (n : List Nat) (t : ScheduleTree)
    (F A : USet) (hn : n ≠ []) (ht : (node (.domain D) cs).get? n = some t)
    (hA : activeDomainPoints I (node (.domain D) cs) n = .ok A)
    (hext : ∀ q ext, t.elemAt q ≠ some (.extension ext)) :
    (∀ q B, activeDomainPoints I (node (.domain D) cs) (n ++ q) = .ok B → B ⊆ A) ∧
    (orderBefore I (node (.domain D) cs) n F =
        .ok ((node (.domain D) cs).replaceAt n (node .sequence [gistedFilter I F t, gistedFilter I (A \ F) t])) ∧
      FaithfulCopy I (node (.domain D) cs)
        ((node (.domain D) cs).replaceAt n (node .sequence [gistedFilter I F t, gistedFilter I (A \ F) t]))
        n (n ++ [0, 0]) F t ∧
      FaithfulCopy I (node (.domain D) cs)
        ((node (.domain D) cs).replaceAt n (node .sequence [gistedFilter I F t, gistedFilter I (A \ F) t]))
        n (n ++ [1, 0]) (A \ F) t) ∧
    (orderAfter I (node (.domain D) cs) n F =
        .ok ((node (.domain D) cs).replaceAt n (node .sequence [gistedFilter I (A \ F) t, gistedFilter I F t])) ∧
      FaithfulCopy I (node (.domain D) cs)
        ((node (.domain D) cs).replaceAt n (node .sequence [gistedFilter I (A \ F) t, gistedFilter I F t]))
        n (n ++ [1, 0]) F t ∧
      FaithfulCopy I (node (.domain D) cs)
        ((node (.domain D) cs).replaceAt n (node .sequence [gistedFilter I (A \ F) t, gistedFilter I F t]))
        n (n ++ [0, 0]) (A \ F) t) :=
  ⟨fun _ _ hB => activeDomainPoints_subset_of_noExtension ht hext hA hB,
    ⟨orderNear_eq hn ht hA _, faithfulCopy_of_getElem? hn ht hext rfl, faithfulCopy_of_getElem? hn ht hext rfl⟩,
    ⟨orderNear_eq hn ht hA _, faithfulCopy_of_getElem? hn ht hext rfl, faithfulCopy_of_getElem? hn ht hext rfl⟩⟩

/-- A node that is no extension, over children with no extension, holds no extension. -/
theorem noExtension_node {e : Elem} {cs : List ScheduleTree} (he : ∀ ext, e ≠ .extension ext)
    (hcs : ∀ c ∈ cs, ∀ q ext, c.elemAt q ≠ some (.extension ext)) :
    ∀ q ext, (node e cs).elemAt q ≠ some (.extension ext) := by
  rintro (_ | ⟨i, q⟩) ext
  · simpa [elemAt] using he ext
  · cases hc : cs[i]? with
    | none => simp [elemAt, hc]
    | some c => simpa [elemAt, hc] using hcs c (List.getElem?_mem hc) q ext

/-- The instances `S[0]` and `S[1]`. -/
def twoPoints : USet := {⟨"S", [0]⟩, ⟨"S", [1]⟩}

/-- A sequence of a filter on `S[0]` and a filter on `S[1]`, each over a leaf. -/
def twoFilters : ScheduleTree :=
  node .sequence [node (.filter {⟨"S", [0]⟩}) [node .sequence []], node (.filter {⟨"S", [1]⟩}) [node .sequence []]]

/-- Ordering `S[0]` first at the sequence `twoFilters` under a domain of `S[0]` and `S[1]`. -/
theorem order_copies_faithful_twoFilters :
    let root := node (.domain twoPoints) [twoFilters]
    let F : USet := {⟨"S", [0]⟩}
    let before := root.replaceAt [0]
      (node .sequence [gistedFilter Isl.plain F twoFilters, gistedFilter Isl.plain (twoPoints \ F) twoFilters])
    let after := root.replaceAt [0]
      (node .sequence [gistedFilter Isl.plain (twoPoints \ F) twoFilters, gistedFilter Isl.plain F twoFilters])
    ([0] ≠ [] ∧ root.get? [0] = some twoFilters ∧ activeDomainPoints Isl.plain root [0] = .ok twoPoints ∧
      ∀ q ext, twoFilters.elemAt q ≠ some (.extension ext)) ∧
    (∀ q B, activeDomainPoints Isl.plain root ([0] ++ q) = .ok B → B ⊆ twoPoints) ∧
    (orderBefore Isl.plain root [0] F = .ok before ∧
      FaithfulCopy Isl.plain root before [0] ([0] ++ [0, 0]) F twoFilters ∧
      FaithfulCopy Isl.plain root before [0] ([0] ++ [1, 0]) (twoPoints \ F) twoFilters) ∧
    (orderAfter Isl.plain root [0] F = .ok after ∧
      FaithfulCopy Isl.plain root after [0] ([0] ++ [1, 0]) F twoFilters ∧
      FaithfulCopy Isl.plain root after [0] ([0] ++ [0, 0]) (twoPoints \ F) twoFilters) :=
  have hleaf : ∀ q ext, (node .sequence []).elemAt q ≠ some (.extension ext) :=
    noExtension_node (by simp) (by simp)
  have hext : ∀ q ext, twoFilters.elemAt q ≠ some (.extension ext) :=
    noExtension_node (by simp) (by simpa using ⟨noExtension_node (by simp) (by simpa using hleaf),
      noExtension_node (by simp) (by simpa using hleaf)⟩)
  ⟨⟨by simp, rfl, rfl, hext⟩,
    order_copies_faithful Isl.plain twoPoints [twoFilters] [0] twoFilters {⟨"S", [0]⟩} twoPoints (by simp) rfl rfl hext⟩

/-! ## Where the two exclusions matter

With an isl that finds empty what is empty and keeps only what lies in the context, `gist` drops a
filter of a sequence disjoint from the copy's set.  An instance active at such a filter `d` but
outside its own set then has no copy of `d`; and the label an extension inside the subtree adds, in
neither filter set, has no copy of a filter on it. -/

/-- A sequence of a filter on `S[1]` over a leaf. -/
def ownSetSequence : ScheduleTree := node .sequence [node (.filter {⟨"S", [1]⟩}) [node .sequence []]]

/-- **An instance outside a filter's own set loses the filter's copy**: ordering `{S[0]}` first at
`ownSetSequence` under a domain of `S[0]` and `S[1]`, `S[0]` is active at the filter on `S[1]` below it,
but `gist` drops that filter from the copy under `{S[0]}`, and `S[0]` is not in the set of the other
copy. -/
theorem orderBefore_drops_filter_outside_own_set :
    ∃ I : Isl, I.Exact ∧ activeDomainPoints I (node (.domain twoPoints) [ownSetSequence]) [0] = .ok twoPoints ∧
      orderBefore I (node (.domain twoPoints) [ownSetSequence]) [0] {⟨"S", [0]⟩} =
        .ok (node (.domain twoPoints) [node .sequence [gistedFilter I {⟨"S", [0]⟩} ownSetSequence,
          gistedFilter I (twoPoints \ {⟨"S", [0]⟩}) ownSetSequence]]) ∧
      ∃ B, activeDomainPoints I (node (.domain twoPoints) [ownSetSequence]) [0, 0] = .ok B ∧ ⟨"S", [0]⟩ ∈ B ∧
        ⟨"S", [0]⟩ ∈ ({⟨"S", [0]⟩} : USet) ∧ ⟨"S", [0]⟩ ∉ ({⟨"S", [1]⟩} : USet) ∧
        gistPos I {⟨"S", [0]⟩} ownSetSequence [0] = none ∧ ⟨"S", [0]⟩ ∉ twoPoints \ {⟨"S", [0]⟩} := by
  obtain ⟨I, hI⟩ := exists_isl_exact
  have hdisjoint : I.isEmpty (I.gist {⟨"S", [1]⟩} {⟨"S", [0]⟩}) = true :=
    (hI.1 _).mpr (by rw [hI.2, Set.singleton_inter_eq_empty]; simp)
  refine ⟨I, hI, rfl, ?_, _, rfl, by simp [twoPoints], rfl, by simp, ?_, by simp⟩
  · exact orderNear_eq (by simp) (by rfl) (by rfl) _
  simp [ownSetSequence, gistPos, gist, Elem.gist, Elem.emptyFilter, Elem.filterSet?, Elem.isSequence, hdisjoint]

/-- An extension that adds the label `L[]` at the empty coordinate tuple, over a sequence of a filter on
`L[]` over a leaf. -/
def labelExtension : ScheduleTree :=
  node (.extension {([], Inst.label "L")}) [node .sequence [node (.filter {Inst.label "L"}) [node .sequence []]]]

/-- **An instance an extension inside the subtree adds can lose every copy**: ordering `{S[0]}` first at
`labelExtension` under a domain of `S[0]`, `L[]` is active at the filter on `L[]` below it and passes that
filter, but `gist` drops the filter from both copies, the one under `{S[0]}` and the one under the rest
of `{S[0]}`. -/
theorem orderBefore_drops_extension_label :
    ∃ I : Isl, I.Exact ∧ activeDomainPoints I (node (.domain {⟨"S", [0]⟩}) [labelExtension]) [0] = .ok {⟨"S", [0]⟩} ∧
      orderBefore I (node (.domain {⟨"S", [0]⟩}) [labelExtension]) [0] {⟨"S", [0]⟩} =
        .ok (node (.domain {⟨"S", [0]⟩}) [node .sequence [gistedFilter I {⟨"S", [0]⟩} labelExtension,
          gistedFilter I ({⟨"S", [0]⟩} \ {⟨"S", [0]⟩}) labelExtension]]) ∧
      ∃ B, activeDomainPoints I (node (.domain {⟨"S", [0]⟩}) [labelExtension]) [0, 0, 0] = .ok B ∧
        Inst.label "L" ∈ B ∧ Inst.label "L" ∈ ({Inst.label "L"} : USet) ∧
        gistPos I {⟨"S", [0]⟩} labelExtension [0, 0] = none ∧
        gistPos I ({⟨"S", [0]⟩} \ {⟨"S", [0]⟩}) labelExtension [0, 0] = none := by
  obtain ⟨I, hI⟩ := exists_isl_exact
  have hgone : ∀ C : USet, Inst.label "L" ∉ C → I.isEmpty (I.gist {Inst.label "L"} C) = true := fun C hC =>
    (hI.1 _).mpr (by rw [hI.2]; exact Set.singleton_inter_eq_empty.mpr hC)
  refine ⟨I, hI, rfl, ?_, _, rfl, by simp [UMap.fromDomain, USet.apply, UMap.range, UMap.intersectDomain], rfl,
    ?_, ?_⟩
  · exact orderNear_eq (by simp) (by rfl) (by rfl) _
  all_goals simp [labelExtension, gistPos, gist, Elem.gist, Elem.emptyFilter, Elem.filterSet?, Elem.isSequence,
    hgone {⟨"S", [0]⟩} (by simp [Inst.label]), hgone ∅ (Set.not_mem_empty _)]

/-! ## An extension inside the reordered subtree -/

/-- `S[0]` and `S[1]` over an extension that adds `S[1]` at the empty coordinate tuple, over a leaf. -/
def orderRoot : ScheduleTree :=
  node (.domain {⟨"S", [0]⟩, ⟨"S", [1]⟩}) [node (.extension {([], ⟨"S", [1]⟩)}) [node .sequence []]]

/-- **An extension inside the reordered subtree reaches both copies**: ordering `S[0]` before the rest
at the extension of `orderRoot`, `S[1]`, which is not in `{S[0]}`, is active at the copy of the leaf
under `{S[0]}` as well as at the one under the rest. -/
theorem orderBefore_extension_reaches_both :
    ∃ root' A A', orderBefore Isl.plain orderRoot [0] {⟨"S", [0]⟩} = .ok root' ∧
      activeDomainPoints Isl.plain root' [0, 0, 0, 0] = .ok A ∧
      activeDomainPoints Isl.plain root' [0, 1, 0, 0] = .ok A' ∧
      ⟨"S", [1]⟩ ∉ ({⟨"S", [0]⟩} : USet) ∧ ⟨"S", [1]⟩ ∈ A ∧ ⟨"S", [1]⟩ ∈ A' := by
  refine ⟨_, _, _, rfl, rfl, rfl, by simp, ?_, ?_⟩ <;> simp [UMap.fromDomain]

end Polyhedral
