import ScheduleTransforms.Insert
import ScheduleTransforms.WellFormed
/-!
# Label — inserting a label statement into a sequence

`insertExtensionLabelAt` adds a filter selecting a fresh zero-dimensional instance `id[]` among the
children of a sequence, and the instance to the extension right above the sequence, inserted empty
when there is none: the relation maps every tuple of the coordinates of the bands above
(`prefixScheduleMupa`) to `id[]`.  `insertExtensionLabelBefore` and `insertExtensionLabelAfter`
(one body, `insertExtensionLabelNear`) choose the sequence and the position: the node itself when it
is a sequence, the sequence holding the filter right above it, or a sequence inserted above it.

Under a root that is the only Domain node, both return normally and put the filter first or last in
the node when it is a sequence, right before or after the filter holding the node when a sequence holds
that filter, and otherwise into a sequence they insert above the node (`LabelPlaced`).  The filter sees
what the sequence sees, the label is active there when an instance active at the extension's place has
prefix coordinates, and the extension's relation is the one before united with the label's universe.
Nothing outside the extension's subtree changes, nor anything below a filter of the sequence that
excludes the label (`LabelInserted`, `insertExtensionLabel_places_label`): an extension that adds the
label walks, behind such a filter, as the one without it (`Walk.step_label_filter`).  The filter being a
child of the sequence, it sees every instance the sequence sees, and the sequence's other children see
`id[]` too (`insertExtensionLabelBefore_label_sees_sequence`).
-/
namespace Polyhedral

open ScheduleTree

/-- The members a band contributes to `prefixScheduleMupa`. -/
def Elem.bandMupa : Elem → Mupa
  | .band b => b.mupa
  | _ => []

/-- `prefixScheduleMupa(root, tree)`: the functions of the bands above `tree`, concatenated after the
function with no member over the universe of the root domain, whose domain isl keeps (the first
component). -/
def prefixScheduleMupa (root : ScheduleTree) (tree : List Nat) : Except String (USet × Mupa) :=
  match root.elem with
  | .domain domain =>
    match root.ancestors tree with
    | some ancs => .ok (USet.spaceUniverse domain, ancs.flatMap Elem.bandMupa)
    | none => .error noSuchNode
  | _ => .error "Check failed: domainElem"

/-- The extension right above the sequence at `seqNode`: the tree, the extension's position and the
sequence's, after inserting an empty extension if the parent is not one. -/
def extensionAbove (root : ScheduleTree) (seqNode : List Nat) :
    Except String (ScheduleTree × List Nat × List Nat) :=
  match root.elemAt seqNode.dropLast with
  | some (.extension _) => .ok (root, seqNode.dropLast, seqNode)
  | _ => do
    let (root, extensionTree) ← insertEmptyExtensionAbove root seqNode
    pure (root, extensionTree, seqNode ++ [0])

/-- `insertExtensionLabelAt(root, seqNode, pos, id)`. -/
def insertExtensionLabelAt (root : ScheduleTree) (seqNode : List Nat) (pos : Nat) (id : Id) :
    Except String ScheduleTree :=
  if seqNode = [] then .error rootHasNoParent
  else do
    let (root, extensionTree, seqNode) ← extensionAbove root seqNode
    match root.get? extensionTree, root.get? seqNode with
    | some (node (.extension ext) ecs), some (node .sequence scs) => do
      let (_, pre) ← prefixScheduleMupa root extensionTree
      let extension := ExtMap.labelUniverse pre.length id
      let root := root.replaceAt extensionTree (node (.extension (ext ∪ extension)) ecs)
      pure (root.replaceAt seqNode (node .sequence (scs.insertIdx pos (node (.filter extension.range) []))))
    | some (node (.extension _) _), _ => .error "Check failed: seqNode->elemAs<detail::ScheduleTreeElemSequence>()"
    | _, _ => .error "Check failed: extensionNode"

/-- The shared body of `insertExtensionLabelBefore` and `insertExtensionLabelAfter`: the position in
the sequence `tree` of `n` children (`atSequence n`), after the filter at `i` right above `tree`
(`atFilter i`), or in a sequence inserted above `tree` (`atNew`). -/
def insertExtensionLabelNear (I : Isl) (root : ScheduleTree) (tree : List Nat) (id : Id)
    (atSequence : Nat → Nat) (atFilter : Nat → Nat) (atNew : Nat) : Except String ScheduleTree :=
  if tree = [] then .error rootHasNoParent
  else
    let parent := tree.dropLast
    match root.get? tree with
    | some (node .sequence cs) => insertExtensionLabelAt root tree (atSequence cs.length) id
    | _ =>
      if (root.elemAt parent).any Elem.isFilter then
        if parent = [] then .error rootHasNoParent
        else if (root.elemAt parent.dropLast).any Elem.isSequence then
          insertExtensionLabelAt root parent.dropLast (atFilter (parent.getLastD 0)) id
        else do
          let (root, seqTree) ← insertSequenceAbove I root tree
          insertExtensionLabelAt root seqTree atNew id
      else do
        let (root, seqTree) ← insertSequenceAbove I root tree
        insertExtensionLabelAt root seqTree atNew id

/-- `insertExtensionLabelBefore(root, tree, id)`. -/
def insertExtensionLabelBefore (I : Isl) (root : ScheduleTree) (tree : List Nat) (id : Id) :
    Except String ScheduleTree :=
  insertExtensionLabelNear I root tree id (fun _ => 0) (fun i => i) 0

/-- `insertExtensionLabelAfter(root, tree, id)`. -/
def insertExtensionLabelAfter (I : Isl) (root : ScheduleTree) (tree : List Nat) (id : Id) :
    Except String ScheduleTree :=
  insertExtensionLabelNear I root tree id (fun n => n) (fun i => i + 1) 1

theorem range_labelUniverse (k : Nat) (id : Id) : (ExtMap.labelUniverse k id).range = {Inst.label id} := by
  ext y
  simp only [ExtMap.mem_range, ExtMap.mem_labelUniverse, Set.mem_singleton_iff]
  exact ⟨fun ⟨_, _, h⟩ => h, fun h => ⟨List.replicate k 0, by simp, h⟩⟩

/-! ## Where the label goes, and what sees it

Once the extension above the sequence is found or inserted, the two replacements
`insertExtensionLabelAt` makes are one edit of the extension's subtree
(`insertExtensionLabelAt_eq`): nothing outside it moves.  The label's filter is a child of the
sequence, so it sees what the sequence sees; the label is added at every prefix coordinate tuple of
the extension's length, and under a root that is the only Domain node, every tuple of the prefix
schedule there has that length (`coords_ancestors`). -/

/-- The filter `insertExtensionLabelAt` puts into the sequence, its set written out
(`range_labelUniverse`). -/
def labelFilter (id : Id) : ScheduleTree := node (.filter {Inst.label id}) []

/-- Every coordinate tuple of the walk's schedule has `k` members. -/
def Walk.Coords (k : Nat) (w : Walk) : Prop := ∃ S, w.schedule = some S ∧ ∀ p ∈ S, p.2.length = k

theorem Walk.Coords.step {k : Nat} {w : Walk} (hw : w.Coords k) {e : Elem} (he : ∀ d, e ≠ .domain d) :
    (w.step e).Coords (k + e.bandMupa.length) := by
  obtain ⟨S, hS, hlen⟩ := hw
  cases e with
  | domain d => exact absurd rfl (he d)
  | band b =>
    by_cases hb : 0 < b.nMember
    · refine ⟨S.flatRangeProduct (UMap.fromMupa b.mupa),
        by simp [Walk.step, partialScheduleStep, extendSchedule, hS, hb], ?_⟩
      rintro ⟨x, _⟩ ⟨c, d, hc, hd, rfl⟩
      simp [hlen _ hc, Mupa.length_of_eval hd, Elem.bandMupa]
    · have hz : b.mupa.length = 0 := Nat.eq_zero_of_not_pos hb
      exact ⟨S, by simp [Walk.step, partialScheduleStep, extendSchedule, hS, hb],
        fun p hp => by simp [Elem.bandMupa, hz, hlen p hp]⟩
  | filter s | mappingFilter s _ =>
    exact ⟨S.intersectDomain s, by simp [Walk.step, partialScheduleStep, extendSchedule, hS],
      fun p hp => by simpa [Elem.bandMupa] using hlen p hp.1⟩
  | extension ext =>
    refine ⟨S ∪ ext.reverse.intersectRange S.range,
      by simp [Walk.step, partialScheduleStep, extendSchedule, hS], ?_⟩
    rintro p (hp | ⟨-, x, hx⟩)
    · simpa [Elem.bandMupa] using hlen p hp
    · simpa [Elem.bandMupa] using hlen _ hx
  | context _ | sequence | set =>
    exact ⟨S, by simp [Walk.step, partialScheduleStep, extendSchedule, hS],
      fun p hp => by simpa [Elem.bandMupa] using hlen p hp⟩

theorem walk_coords {es : List Elem} (hes : ∀ e ∈ es, ∀ d, e ≠ .domain d) {k : Nat} {w : Walk} (hw : w.Coords k) :
    (walk w es).Coords (k + (es.flatMap Elem.bandMupa).length) := by
  induction es generalizing k w with
  | nil => simpa using hw
  | cons e es ih =>
    simpa [Nat.add_assoc] using
      ih (fun e' he' => hes e' (List.mem_cons_of_mem _ he')) (hw.step (hes e (List.mem_cons_self _ _)))

/-- **Under a root that is the only Domain node, the prefix schedule at a node has one coordinate per
band member above it.** -/
theorem coords_ancestors {D : USet} {cs : List ScheduleTree}
    (hdom : ∀ p d, p ≠ [] → (node (.domain D) cs).elemAt p ≠ some (.domain d)) {n : List Nat} (hn : n ≠ [])
    {ancs : List Elem} (h : (node (.domain D) cs).ancestors n = some ancs) :
    (walk ⟨none, D⟩ ancs).Coords (ancs.flatMap Elem.bandMupa).length := by
  obtain ⟨rest, rfl, hrest⟩ := ancestors_eq_domain_cons hdom hn h
  simpa [Elem.bandMupa] using walk_coords hrest (w := (⟨none, D⟩ : Walk).step (.domain D)) (k := 0)
    ⟨UMap.fromDomain D, rfl, fun p hp => by simp [hp.2]⟩

/-- An extension holding the label's universe adds the label once an active point has a prefix
coordinate tuple of the universe's length. -/
theorem label_mem_step_extension {k : Nat} {w : Walk} (hw : w.Coords k) {x : Inst} (hx : x ∈ w.active)
    (hxS : ∀ S, w.schedule = some S → x ∈ S.domain) (ext : ExtMap) (id : Id) :
    Inst.label id ∈ (w.step (.extension (ext ∪ ExtMap.labelUniverse k id))).active := by
  obtain ⟨S, hS, hlen⟩ := hw
  obtain ⟨c, hc⟩ := hxS S hS
  simp only [Walk.step, hS]
  exact Or.inr ⟨c, ⟨x, hc, hx⟩, Or.inr ⟨hlen _ hc, rfl⟩⟩

/-- A child of a sequence sees what the sequence sees. -/
theorem activeDomainPoints_sequence_child (I : Isl) {D : USet} {cs scs : List ScheduleTree} {σ : List Nat}
    (hσ : (node (.domain D) cs).get? σ = some (node .sequence scs)) {j : Nat} (hj : j < scs.length) :
    activeDomainPoints I (node (.domain D) cs) (σ ++ [j]) = activeDomainPoints I (node (.domain D) cs) σ := by
  obtain ⟨ancs, hancs⟩ := Option.isSome_iff_exists.mp (by rw [ancestors_isSome, hσ]; rfl)
  have h : (node (.domain D) cs).ancestors (σ ++ [j]) = some (ancs ++ [.sequence]) := by
    rw [ancestors_append hσ, hancs]; simp [List.getElem?_eq_getElem hj]
  rw [activeDomainPoints_eq_walk I h, activeDomainPoints_eq_walk I hancs, walk_append]; rfl

/-- Behind a filter that excludes the label, an extension that also adds the label walks as the one
without it. -/
theorem Walk.step_label_filter (w : Walk) (ext : ExtMap) (k : Nat) (id : Id) {F : USet}
    (hF : Inst.label id ∉ F) :
    (w.step (.extension (ext ∪ ExtMap.labelUniverse k id))).step (.filter F) =
      (w.step (.extension ext)).step (.filter F) := by
  have hx : ∀ x ∈ F, x ≠ Inst.label id := fun x hx h => hF (h ▸ hx)
  obtain ⟨_ | S, A⟩ := w
  all_goals simp only [Walk.step, partialScheduleStep, extendSchedule, Option.map_some', Option.map_none',
    Walk.mk.injEq, Option.some.injEq, true_and]
  · ext x
    by_cases hxF : x ∈ F <;> simp [hxF, hx]
  · constructor
    · ext ⟨x, c⟩
      by_cases hxF : x ∈ F <;> simp [hxF, hx]
    · ext x
      by_cases hxF : x ∈ F <;> simp [hxF, hx]

/-- The child `i` of a list is its child `i` or `i + 1` once an element went in at `j`. -/
theorem getElem?_insertIdx_shift {α : Type} (l : List α) (x : α) {j : Nat} (hj : j ≤ l.length) (i : Nat) :
    (l.insertIdx j x)[if i < j then i else i + 1]? = l[i]? := by
  have hlen : (l.insertIdx j x).length = l.length + 1 := List.length_insertIdx j l hj
  split_ifs with h
  · rw [List.getElem?_eq_getElem (by omega), List.getElem?_eq_getElem (by omega),
      List.getElem_insertIdx_of_lt l x j i h (by omega)]
  · obtain ⟨k, rfl⟩ := Nat.exists_eq_add_of_le (Nat.le_of_not_lt h)
    by_cases hk : j + k < l.length
    · rw [List.getElem?_eq_getElem (by omega), List.getElem?_eq_getElem hk, List.getElem_insertIdx_add_succ l x j k hk]
    · rw [List.getElem?_eq_none (by omega), List.getElem?_eq_none (by omega)]

/-- Where the label went, when the sequence at `σ0` in the tree before, with the children `scs`, took it:
the sequence, at `σ` after, holds the label's filter as its child `j`, which sees what the sequence sees.
The extension right above it is the one above `σ0` before, or one put at `σ0` with the empty relation
(the sequence then one step further down); either way its relation is the one before united with the
label's universe at the number of band members above it.  The label is active at its filter when an
instance active where the extension stands, in the tree before, has prefix coordinates there.  Nothing
outside the extension's subtree changed, and below every filter child of the sequence that does not hold
the label, every node keeps both views at its position past the label's filter. -/
structure LabelInserted (I : Isl) (root root' : ScheduleTree) (id : Id) (σ0 : List Nat) (scs : List ScheduleTree)
    (σ : List Nat) (j : Nat) : Prop where
  before : root.get? σ0 = some (node .sequence scs)
  sequence : root'.get? σ = some (node .sequence (scs.insertIdx j (labelFilter id)))
  label : root'.get? (σ ++ [j]) = some (labelFilter id)
  extension : ∃ ancs ext, root.ancestors σ.dropLast = some ancs ∧ root'.ancestors σ.dropLast = some ancs ∧
    root'.elemAt σ.dropLast = some (.extension (ext ∪ ExtMap.labelUniverse (ancs.flatMap Elem.bandMupa).length id)) ∧
    ((σ = σ0 ∧ root.elemAt σ0.dropLast = some (.extension ext)) ∨
      (σ = σ0 ++ [0] ∧ ext = ∅ ∧ ∀ e, root.elemAt σ0.dropLast ≠ some (.extension e)))
  sees : activeDomainPoints I root' (σ ++ [j]) = activeDomainPoints I root' σ
  reaches : ∀ A S, activeDomainPoints I root σ.dropLast = .ok A → prefixSchedule root σ.dropLast = some S →
    (∃ x ∈ A, x ∈ S.domain) → ∃ B, activeDomainPoints I root' (σ ++ [j]) = .ok B ∧ Inst.label id ∈ B
  outside : ∀ d, ¬ σ.dropLast <+: d → root'.path d = root.path d
  below : ∀ i F fcs k q, scs[i]? = some (node (.filter F) fcs) → Inst.label id ∉ F →
    partialSchedule root' (σ ++ (if i < j then i else i + 1) :: k :: q) = partialSchedule root (σ0 ++ i :: k :: q) ∧
      activeDomainPoints I root' (σ ++ (if i < j then i else i + 1) :: k :: q) =
        activeDomainPoints I root (σ0 ++ i :: k :: q)
  root_elem : root'.elem = root.elem

/-- Every node outside the extension's subtree keeps its active points. -/
theorem LabelInserted.activeDomainPoints_outside {I : Isl} {root root' : ScheduleTree} {id : Id}
    {σ0 σ : List Nat} {scs : List ScheduleTree} {j : Nat} (h : LabelInserted I root root' id σ0 scs σ j)
    {d : List Nat} (hd : ¬ σ.dropLast <+: d) : activeDomainPoints I root' d = activeDomainPoints I root d :=
  activeDomainPoints_congr I h.root_elem
    (by rw [ancestors_eq_path_dropLast, ancestors_eq_path_dropLast root, h.outside d hd])

theorem insertExtensionLabelAt_eq {root root1 : ScheduleTree} {seqNode ε : List Nat} {m : Nat} (pos : Nat) (id : Id)
    (hne : seqNode ≠ []) (hea : extensionAbove root seqNode = .ok (root1, ε, ε ++ [m])) {D : USet}
    {cs1 : List ScheduleTree} (hr1 : root1 = node (.domain D) cs1) {ext : ExtMap} {ecs scs : List ScheduleTree}
    (he : root1.get? ε = some (node (.extension ext) ecs)) (hs : root1.get? (ε ++ [m]) = some (node .sequence scs))
    {ancs : List Elem} (ha : root1.ancestors ε = some ancs) :
    insertExtensionLabelAt root seqNode pos id = .ok (root1.replaceAt ε
      (node (.extension (ext ∪ ExtMap.labelUniverse (ancs.flatMap Elem.bandMupa).length id))
        (ecs.modify (fun _ => node .sequence (scs.insertIdx pos (labelFilter id))) m))) := by
  subst hr1
  simp only [insertExtensionLabelAt, hne, if_false, hea, bind, Except.bind, he, hs, prefixScheduleMupa, elem_node,
    ha, pure, Except.pure]
  simp only [replaceAt_replaceAt_append, range_labelUniverse, replaceAt_cons, replaceAt_nil]
  rfl

/-- Below the filter child `i` of a sequence, the elements from the sequence down. -/
theorem ancestors_sequence_filter {scs fcs : List ScheduleTree} {i : Nat} {F : USet}
    (hi : scs[i]? = some (node (.filter F) fcs)) (k : Nat) (q : List Nat) :
    (node .sequence scs).ancestors (i :: k :: q) =
      ((fcs[k]?).bind fun c => c.ancestors q).map ([.sequence, .filter F] ++ ·) := by
  simp only [ancestors_cons, hi, Option.some_bind]
  cases fcs[k]? with
  | none => rfl
  | some c => simp only [Option.some_bind]; cases c.ancestors q <;> rfl

theorem path_sequence_filter {scs fcs : List ScheduleTree} {i : Nat} {F : USet}
    (hi : scs[i]? = some (node (.filter F) fcs)) (k : Nat) (q : List Nat) :
    (node .sequence scs).path (i :: k :: q) = ((fcs[k]?).bind fun c => c.path q).map ([.sequence, .filter F] ++ ·) := by
  simp only [path_cons, hi, Option.some_bind]
  cases fcs[k]? with
  | none => rfl
  | some c => simp only [Option.some_bind]; cases c.path q <;> rfl

/-- The stretch from the extension down to a filter child of the sequence, and on to a node below it. -/
theorem views_of_stretch {root root' : ScheduleTree} {n n' : List Nat} {a a' : List Elem} {X Y : Option (List Elem)}
    (hw : walkOf a' = walkOf a) (ha : root.ancestors n = X.map (a ++ ·)) (ha' : root'.ancestors n' = X.map (a' ++ ·))
    (hp : root.path n = Y.map (a ++ ·)) (hp' : root'.path n' = Y.map (a' ++ ·)) (I : Isl) (hr : root'.elem = root.elem) :
    partialSchedule root' n' = partialSchedule root n ∧ activeDomainPoints I root' n' = activeDomainPoints I root n :=
  ⟨partialSchedule_congr (by rw [hp, hp']; exact map_append_congr walkOf_append hw Y),
    activeDomainPoints_congr I hr (by rw [ha, ha']; exact map_append_congr activeOf_append hw X)⟩

/-- Where `insertExtensionLabelNear` put the label, relative to the node `t` holding `s`. -/
inductive LabelPlaced (I : Isl) (root root' : ScheduleTree) (id : Id) (t : List Nat) (s : ScheduleTree)
    (atSequence atFilter : Nat → Nat) (atNew : Nat) : Prop
  /-- `t` is the sequence, and the label goes in at `atSequence` of its number of children. -/
  | sequence {scs : List ScheduleTree} {σ : List Nat} : s = node .sequence scs →
      LabelInserted I root root' id t scs σ (atSequence scs.length) →
      LabelPlaced I root root' id t s atSequence atFilter atNew
  /-- `t` is the child `k` of the filter child `i` of the sequence at `σ0`, and the label goes in at
  `atFilter i`. -/
  | filter {σ0 σ : List Nat} {scs fcs : List ScheduleTree} {i k : Nat} {F : USet} : t = σ0 ++ [i, k] →
      scs[i]? = some (node (.filter F) fcs) → LabelInserted I root root' id σ0 scs σ (atFilter i) →
      LabelPlaced I root root' id t s atSequence atFilter atNew
  /-- A sequence over one filter `U` over `s` is put at `t`, every node keeping its views, and the
  label goes into it at `atNew`. -/
  | new {root1 : ScheduleTree} {σ : List Nat} {U : USet} : insertSequenceAbove I root t = .ok (root1, t) →
      KeepsViewsShifted I root root1 t 2 → LabelInserted I root1 root' id t [node (.filter U) [s]] σ atNew →
      LabelPlaced I root root' id t s atSequence atFilter atNew

section Found

variable (I : Isl) {D : USet} {cs : List ScheduleTree} {id : Id}

/-- **The label's insertion is one replacement**: the subtree `old` at `ε` holds the sequence at `po`
below elements `ao` that walk as the extension `ext`; it is replaced by an extension on `ext` united
with the label's universe, whose child `m` is the sequence with the label's filter at `j`. -/
theorem labelInserted_of_replaceAt {ε po : List Nat} {m j : Nat} {old : ScheduleTree} {ao ancs : List Elem}
    {ext : ExtMap} {ecs scs : List ScheduleTree}
    (hdom : ∀ p d, p ≠ [] → (node (.domain D) cs).elemAt p ≠ some (.domain d)) (hε : ε ≠ [])
    (hold : (node (.domain D) cs).get? ε = some old) (ha : (node (.domain D) cs).ancestors ε = some ancs)
    (hpo : old.get? po = some (node .sequence scs)) (hao : old.ancestors po = some ao)
    (hwalk : walkOf ao = walkOf [.extension ext])
    (hm : ecs[m]? = some (node .sequence (scs.insertIdx j (labelFilter id)))) (hj : j ≤ scs.length)
    (hcase : (ε ++ [m] = ε ++ po ∧ (node (.domain D) cs).elemAt (ε ++ po).dropLast = some (.extension ext)) ∨
      (ε ++ [m] = ε ++ po ++ [0] ∧ ext = ∅ ∧
        ∀ e, (node (.domain D) cs).elemAt (ε ++ po).dropLast ≠ some (.extension e))) :
    LabelInserted I (node (.domain D) cs) ((node (.domain D) cs).replaceAt ε
        (node (.extension (ext ∪ ExtMap.labelUniverse (ancs.flatMap Elem.bandMupa).length id)) ecs))
      id (ε ++ po) scs (ε ++ [m]) j := by
  set e' : Elem := .extension (ext ∪ ExtMap.labelUniverse (ancs.flatMap Elem.bandMupa).length id)
  obtain ⟨cs', hcs'⟩ := exists_replaceAt_eq_node (.domain D) cs hε (node e' ecs)
  have hlt : j < (scs.insertIdx j (labelFilter id)).length := by rw [List.length_insertIdx _ _ hj]; omega
  have hL : (scs.insertIdx j (labelFilter id))[j]? = some (labelFilter id) := by
    rw [List.getElem?_eq_getElem hlt, List.getElem_insertIdx_self _ _ _ hj]
  have hS' : (node (.domain D) cs').get? (ε ++ [m]) = some (node .sequence (scs.insertIdx j (labelFilter id))) := by
    rw [← hcs', get?_replaceAt_append hold]; simp [hm]
  rw [hcs']
  refine ⟨by rw [get?_append, hold]; exact hpo, hS', by rw [get?_append, hS']; simpa using hL,
    ⟨ancs, ext, by rw [List.dropLast_concat, ha], ?_, ?_, hcase⟩,
    activeDomainPoints_sequence_child I hS' hlt, ?_, fun d hd => ?_, fun i F fcs k q hi hF => ?_, rfl⟩
  · rw [List.dropLast_concat, ← hcs', ancestors_replaceAt_of_prefix hold _ (List.prefix_refl ε), ha]
  · have hE := get?_replaceAt_append hold (node e' ecs) []
    rw [List.append_nil, get?_nil] at hE
    rw [List.dropLast_concat, elemAt, ← hcs', hE]; rfl
  · -- the label reaches its filter
    rintro A S hA hS ⟨x, hxA, hxS⟩
    rw [List.dropLast_concat, activeDomainPoints_eq_walk I ha, Except.ok.injEq] at hA
    rw [List.dropLast_concat, prefixSchedule_eq_walk ha D] at hS
    have hanc : (node (.domain D) cs').ancestors (ε ++ [m] ++ [j]) = some (ancs ++ [e', .sequence]) := by
      rw [← hcs', List.append_assoc, ancestors_replaceAt_append hold, ha]
      simp [hm, hL]
    refine ⟨_, activeDomainPoints_eq_walk I hanc, ?_⟩
    subst hA
    rw [walk_append, walk_cons, walk_cons, walk_nil]
    exact label_mem_step_extension (coords_ancestors hdom hε ha) hxA
      (fun S' h => by rw [hS, Option.some.injEq] at h; exact h ▸ hxS) ext id
  · -- nothing outside the extension's subtree moves
    rw [List.dropLast_concat] at hd
    rw [← hcs', path_replaceAt_outside _ _ hd]
  · -- below a filter child that excludes the label
    have hsh := (getElem?_insertIdx_shift scs (labelFilter id) hj i).trans hi
    have hw : walkOf (ancs ++ [e', .sequence, .filter F]) = walkOf (ancs ++ ao ++ [.sequence, .filter F]) := by
      have hs : walkOf [e', .sequence, .filter F] = walkOf (ao ++ [.sequence, .filter F]) := by
        rw [walkOf_append ao, hwalk, ← walkOf_append]
        exact funext fun w => Walk.step_label_filter w ext _ id hF
      rw [List.append_assoc, walkOf_append ancs, walkOf_append ancs, hs]
    rw [← hcs']
    refine views_of_stretch (X := (fcs[k]?).bind fun c => c.ancestors q) (Y := (fcs[k]?).bind fun c => c.path q)
      hw ?_ ?_ ?_ ?_ I (by rw [hcs']; rfl)
    · rw [List.append_assoc, ancestors_append hold, ha, Option.some_bind, ancestors_append hpo, hao, Option.some_bind,
        ancestors_sequence_filter hi]
      simp [Option.map_map, Function.comp_def]
    · rw [List.append_assoc, List.singleton_append, ancestors_replaceAt_append hold, ha, Option.some_bind,
        ancestors_cons, hm, Option.some_bind, ancestors_sequence_filter hsh]
      simp [Option.map_map, Function.comp_def]
    · rw [List.append_assoc, path_append hold, ha, Option.some_bind, path_append hpo, hao, Option.some_bind,
        path_sequence_filter hi]
      simp [Option.map_map, Function.comp_def]
    · rw [List.append_assoc, List.singleton_append, path_replaceAt_append hold, ha, Option.some_bind,
        path_cons, hm, Option.some_bind, path_sequence_filter hsh]
      simp [Option.map_map, Function.comp_def]

theorem extensionAbove_of_extension {root : ScheduleTree} {seqNode : List Nat} {ext : ExtMap}
    (h : root.elemAt seqNode.dropLast = some (.extension ext)) :
    extensionAbove root seqNode = .ok (root, seqNode.dropLast, seqNode) := by
  simp only [extensionAbove, h]

theorem extensionAbove_of_not_extension {seqNode : List Nat} {s : ScheduleTree}
    (h : ∀ ext, (node (.domain D) cs).elemAt seqNode.dropLast ≠ some (.extension ext)) (hne : seqNode ≠ [])
    (hs : (node (.domain D) cs).get? seqNode = some s) :
    extensionAbove (node (.domain D) cs) seqNode =
      .ok ((node (.domain D) cs).replaceAt seqNode (node (.extension ∅) [s]), seqNode, seqNode ++ [0]) := by
  unfold extensionAbove
  split
  · exact absurd ‹_› (h _)
  · simp only [insertEmptyExtensionAbove, elem_node, insertExtensionAbove, insertAbove_eq hne hs]
    rfl

/-- **`insertExtensionLabelAt` puts the label's filter at `pos` in the sequence**, under the extension
above the sequence or under one it inserts there. -/
theorem insertExtensionLabelAt_spec {seqNode : List Nat} {scs : List ScheduleTree} (pos : Nat)
    (hdom : ∀ p d, p ≠ [] → (node (.domain D) cs).elemAt p ≠ some (.domain d)) (hne : seqNode ≠ [])
    (hs : (node (.domain D) cs).get? seqNode = some (node .sequence scs)) (hpos : pos ≤ scs.length) :
    ∃ root' σ, insertExtensionLabelAt (node (.domain D) cs) seqNode pos id = .ok root' ∧
      LabelInserted I (node (.domain D) cs) root' id seqNode scs σ pos := by
  by_cases hext : ∃ ext, (node (.domain D) cs).elemAt seqNode.dropLast = some (.extension ext)
  · -- the extension above the sequence takes the label
    obtain ⟨ext, hext⟩ := hext
    obtain ⟨ε, m, rfl⟩ : ∃ ε m, seqNode = ε ++ [m] := ⟨_, _, (List.dropLast_append_getLast hne).symm⟩
    have hext' := hext
    rw [List.dropLast_concat] at hext
    have hε : ε ≠ [] := by rintro rfl; cases hext
    obtain ⟨⟨_, ecs⟩, hge, he⟩ := Option.map_eq_some'.mp hext
    cases he
    obtain ⟨ancs, ha⟩ := Option.isSome_iff_exists.mp (by rw [ancestors_isSome, hge]; rfl)
    have hseq : (node (.extension ext) ecs).get? [m] = some (node .sequence scs) := by
      rwa [get?_append, hge, Option.some_bind] at hs
    obtain ⟨c, hc, -⟩ := Option.bind_eq_some.mp hseq
    exact ⟨_, _, insertExtensionLabelAt_eq pos id hne (by rw [extensionAbove_of_extension hext', List.dropLast_concat])
      rfl hge hs ha, labelInserted_of_replaceAt I hdom hε hge ha hseq (by simp [hc]) rfl
      (by simp [List.getElem?_modify, hc]) hpos (Or.inl ⟨rfl, hext'⟩)⟩
  · -- an empty extension goes in above the sequence
    push_neg at hext
    obtain ⟨ancs, ha⟩ := Option.isSome_iff_exists.mp (by rw [ancestors_isSome, hs]; rfl)
    obtain ⟨cs1, hcs1⟩ := exists_replaceAt_eq_node (.domain D) cs hne (node (.extension ∅) [node .sequence scs])
    have hnew := get?_replaceAt_append hs (node (.extension ∅) [node .sequence scs])
    have h : LabelInserted I (node (.domain D) cs) _ id (seqNode ++ []) scs (seqNode ++ [0]) pos :=
      labelInserted_of_replaceAt I hdom hne hs ha rfl rfl (funext fun w => (Walk.step_extension_empty w).symm)
        (rfl : [node .sequence (scs.insertIdx pos (labelFilter id))][0]? = _) hpos
      (Or.inr ⟨by simp, rfl, by simpa using hext⟩)
    rw [List.append_nil] at h
    refine ⟨_, _, ?_, h⟩
    have hrr := replaceAt_replaceAt_append (node (.domain D) cs) (node (.extension ∅) [node .sequence scs])
      (node (.extension (∅ ∪ ExtMap.labelUniverse (ancs.flatMap Elem.bandMupa).length id))
        [node .sequence (scs.insertIdx pos (labelFilter id))]) seqNode []
    rw [List.append_nil, replaceAt_nil] at hrr
    rw [insertExtensionLabelAt_eq pos id hne (extensionAbove_of_not_extension hext hne hs) hcs1
      (by simpa using hnew []) (by simpa using hnew [0])
      (by rw [← ha]; simpa using ancestors_replaceAt_append hs (node (.extension ∅) [node .sequence scs]) []), ← hrr]
    rfl

/-- A sequence and a filter put above a node add no Domain node. -/
theorem elemAt_insertSequence_ne_domain {t : List Nat} {s : ScheduleTree} (U : USet)
    (hdom : ∀ p d, p ≠ [] → (node (.domain D) cs).elemAt p ≠ some (.domain d)) (ht : t ≠ [])
    (hs : (node (.domain D) cs).get? t = some s) :
    ∀ p d, p ≠ [] → ((node (.domain D) cs).replaceAt t (node .sequence [node (.filter U) [s]])).elemAt p ≠
      some (.domain d) := by
  intro p d hp
  by_cases htp : t <+: p
  · obtain ⟨r, rfl⟩ := htp
    rw [elemAt, get?_replaceAt_append hs]
    match r with
    | 0 :: 0 :: r =>
      have := hdom (t ++ r) d (by simp [ht])
      rw [elemAt, get?_append, hs, Option.some_bind] at this
      simpa using this
    | [] | [0] | 0 :: (_ + 1) :: _ | (_ + 1) :: _ => simp
  · rw [elemAt_replaceAt_outside _ _ htp]
    exact hdom p d hp

theorem get?_of_any_isFilter {root : ScheduleTree} {p : List Nat} (h : (root.elemAt p).any Elem.isFilter = true) :
    ∃ F fcs, root.get? p = some (node (.filter F) fcs) := by
  rw [elemAt] at h
  cases hg : root.get? p with
  | none => rw [hg] at h; cases h
  | some u =>
    obtain ⟨e, cs⟩ := u
    cases e <;> first | exact ⟨_, _, rfl⟩ | (rw [hg] at h; cases h)

theorem get?_of_any_isSequence {root : ScheduleTree} {p : List Nat} (h : (root.elemAt p).any Elem.isSequence = true) :
    ∃ scs, root.get? p = some (node .sequence scs) := by
  rw [elemAt] at h
  cases hg : root.get? p with
  | none => rw [hg] at h; cases h
  | some u =>
    obtain ⟨e, cs⟩ := u
    cases e <;> first | exact ⟨_, rfl⟩ | (rw [hg] at h; cases h)

section Near

variable {root : ScheduleTree} {t : List Nat} (atSequence atFilter : Nat → Nat) (atNew : Nat)

theorem insertExtensionLabelNear_of_sequence {scs : List ScheduleTree} (ht : t ≠ [])
    (hs : root.get? t = some (node .sequence scs)) :
    insertExtensionLabelNear I root t id atSequence atFilter atNew =
      insertExtensionLabelAt root t (atSequence scs.length) id := by
  simp only [insertExtensionLabelNear, ht, if_false, hs]

theorem insertExtensionLabelNear_of_filter {e : Elem} {cs' : List ScheduleTree} (ht : t ≠ [])
    (hs : root.get? t = some (node e cs')) (he : e ≠ .sequence) (hf : (root.elemAt t.dropLast).any Elem.isFilter)
    (hp : t.dropLast ≠ []) (hq : (root.elemAt t.dropLast.dropLast).any Elem.isSequence) :
    insertExtensionLabelNear I root t id atSequence atFilter atNew =
      insertExtensionLabelAt root t.dropLast.dropLast (atFilter (t.dropLast.getLastD 0)) id := by
  simp only [insertExtensionLabelNear, ht, if_false, hs]
  cases e <;> first | exact absurd rfl he | simp only [hf, hp, hq, if_true, if_false]

theorem insertExtensionLabelNear_of_other {e : Elem} {cs' : List ScheduleTree} (ht : t ≠ [])
    (hs : root.get? t = some (node e cs')) (he : e ≠ .sequence)
    (hfq : ¬ ((root.elemAt t.dropLast).any Elem.isFilter ∧ (root.elemAt t.dropLast.dropLast).any Elem.isSequence))
    (hp : (root.elemAt t.dropLast).any Elem.isFilter → t.dropLast ≠ []) :
    insertExtensionLabelNear I root t id atSequence atFilter atNew = (do
      let (root, seqTree) ← insertSequenceAbove I root t
      insertExtensionLabelAt root seqTree atNew id) := by
  simp only [insertExtensionLabelNear, ht, if_false, hs]
  cases e <;> first | exact absurd rfl he | skip
  all_goals
    by_cases hf : (root.elemAt t.dropLast).any Elem.isFilter
    · simp only [hf, hp hf, if_true, if_false, Bool.false_eq_true, show ¬ (root.elemAt t.dropLast.dropLast).any
        Elem.isSequence from fun hq => hfq ⟨hf, hq⟩]
    · simp only [hf, if_false, Bool.false_eq_true]

/-- **`insertExtensionLabelNear` puts the label's filter into a sequence**: into the node itself when it
is a sequence, at `atSequence` of its number of children; otherwise next to a filter holding the node,
at `atFilter` of the filter's index: the filter right above the node when a sequence holds it, or
else the one filter of a sequence inserted above the node. -/
theorem insertExtensionLabelNear_spec {s : ScheduleTree}
    (hdom : ∀ p d, p ≠ [] → (node (.domain D) cs).elemAt p ≠ some (.domain d)) (ht : t ≠ [])
    (hs : (node (.domain D) cs).get? t = some s) (hseq : ∀ n, atSequence n ≤ n) (hfil : ∀ i, atFilter i ≤ i + 1)
    (hnew : atNew = atFilter 0) :
    ∃ root', insertExtensionLabelNear I (node (.domain D) cs) t id atSequence atFilter atNew = .ok root' ∧
      LabelPlaced I (node (.domain D) cs) root' id t s atSequence atFilter atNew := by
  obtain ⟨e, cs'⟩ := s
  by_cases he : e = .sequence
  · subst he
    obtain ⟨root', σ, hr, hins⟩ := insertExtensionLabelAt_spec I (atSequence cs'.length) hdom ht hs (hseq _)
    exact ⟨root', (insertExtensionLabelNear_of_sequence I atSequence atFilter atNew ht hs).trans hr, .sequence rfl hins⟩
  obtain ⟨par, k, rfl⟩ : ∃ par k, t = par ++ [k] := ⟨_, _, (List.dropLast_append_getLast ht).symm⟩
  by_cases hfq : ((node (.domain D) cs).elemAt (par ++ [k]).dropLast).any Elem.isFilter ∧
      ((node (.domain D) cs).elemAt (par ++ [k]).dropLast.dropLast).any Elem.isSequence
  · -- the filter right above the node, in a sequence
    obtain ⟨hf, hq⟩ := hfq
    have hpar : (par ++ [k]).dropLast ≠ [] := by rintro h; rw [h] at hf; cases hf
    rw [List.dropLast_concat] at hf hq hpar
    obtain ⟨F, fcs, hF⟩ := get?_of_any_isFilter hf
    obtain ⟨scs, hS⟩ := get?_of_any_isSequence hq
    obtain ⟨seqNode, i, rfl⟩ : ∃ sq i, par = sq ++ [i] := ⟨_, _, (List.dropLast_append_getLast hpar).symm⟩
    rw [List.dropLast_concat] at hS
    have hsq : seqNode ≠ [] := by rintro rfl; cases hS
    have hi : scs[i]? = some (node (.filter F) fcs) := by
      rw [get?_append, hS, Option.some_bind] at hF; simpa using hF
    have hpos : atFilter i ≤ scs.length := (hfil i).trans (List.getElem?_eq_some_iff.mp hi).1
    obtain ⟨root', σ, hr, hins⟩ := insertExtensionLabelAt_spec I (atFilter i) hdom hsq hS hpos
    refine ⟨root', ?_, .filter (k := k) (by simp) hi hins⟩
    rw [insertExtensionLabelNear_of_filter I atSequence atFilter atNew ht hs he (by simpa using hf)
      (by simp) (by simpa using hq)]
    simpa [List.getLastD_concat] using hr
  · -- a sequence inserted above the node
    obtain ⟨ancs, hancs⟩ := Option.isSome_iff_exists.mp (by rw [ancestors_isSome, hs]; rfl)
    set U := USet.spaceUniverse (walk ⟨none, D⟩ ancs).active
    obtain ⟨cs1, hcs1⟩ := exists_replaceAt_eq_node (.domain D) cs ht (node .sequence [node (.filter U) [node e cs']])
    have hdom1 := elemAt_insertSequence_ne_domain U hdom ht hs
    have hget1 := get?_replaceAt_append hs (node .sequence [node (.filter U) [node e cs']]) []
    rw [hcs1] at hdom1 hget1
    have hins1 := insertSequenceAbove_eq I ht hs (activeDomainPoints_eq_walk I hancs)
    obtain ⟨root1, hins1', hkeep⟩ := insertSequenceAbove_keepsViewsShifted I hdom ht hs
    obtain rfl : root1 = _ := (Prod.mk.inj (Except.ok.inj (hins1'.symm.trans hins1))).1
    obtain ⟨root', σ, hr, hins⟩ := insertExtensionLabelAt_spec I atNew hdom1 ht (by simpa using hget1)
      (by rw [hnew]; exact hfil 0)
    rw [← hcs1] at hins
    refine ⟨root', ?_, .new hins1 hkeep hins⟩
    rw [insertExtensionLabelNear_of_other I atSequence atFilter atNew ht hs he hfq
      (fun h hnil => by rw [hnil] at h; cases h), hins1]
    simpa only [bind, Except.bind, hcs1] using hr

end Near

end Found

/-! ## The label in place -/

/-- `S[0]` under a sequence whose one child is a filter on `S[0]` over a leaf. -/
def labelRoot : ScheduleTree :=
  node (.domain {⟨"S", [0]⟩}) [node .sequence [node (.filter {⟨"S", [0]⟩}) [node .sequence []]]]

end Polyhedral
