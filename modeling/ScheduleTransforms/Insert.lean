import ScheduleTransforms.Schedule
import ScheduleTransforms.Bands
/-!
# Insert — putting a new node above or below a node

`insertBandAbove`, `insertExtensionAbove` and `insertSequenceAbove` share one body (`insertAbove`): the
node is detached from its parent and put back, in its slot, as the only child of a new node, whose
position is the node's old one.  `insertBandBelow` puts a band between a node and its children, of
which it must have at most one.  `updateTopLevelContext` puts a Context node between the root and its
children, unless one is there over a single node, and narrows its context.  The new nodes are built by
`makeBand` and by the plain node constructors.  `swapSubtree` puts a subtree in a node's place and hands the node's subtree back;
swapping that back restores the tree (`swapSubtree_swapSubtree`).

Under a root that is the only Domain node, wrapping a node in a placeholder sequence, whose filter
lets through every instance active there, or in an empty extension changes neither view of any node
(`wrapping_keeps_views`).
-/
namespace Polyhedral

open ScheduleTree

/-- Modelled from the spec: the band `ScheduleTree::makeBand`, which is not in the source, builds from
`mupa`: not permutable, no member coincident or unrolled, its flag vectors as long as its member
list. -/
def Band.ofMupa (mupa : Mupa) : Band := ⟨mupa, false, List.replicate mupa.length false, List.replicate mupa.length false⟩

/-- `ScheduleTree::makeBand(mupa, children)`. -/
def makeBand (mupa : Mupa) (children : List ScheduleTree) : ScheduleTree := node (.band (Band.ofMupa mupa)) children

/-- The error for the parent of the root, which `tree->ancestor(root, 1)` cannot give. -/
def rootHasNoParent : String := "the root has no parent"

/-- The shared body of the `insert…Above` functions: the node at `tree` goes back in its slot as the
only child of `wrap` of it; the new node is at `tree`. -/
def insertAbove (root : ScheduleTree) (tree : List Nat) (wrap : ScheduleTree → ScheduleTree) :
    Except String (ScheduleTree × List Nat) :=
  if tree = [] then .error rootHasNoParent
  else do
    let root ← root.editAt tree fun child => .ok (wrap child)
    pure (root, tree)

/-- `insertBandAbove(root, tree, mupa)`. -/
def insertBandAbove (root : ScheduleTree) (tree : List Nat) (mupa : Mupa) :
    Except String (ScheduleTree × List Nat) :=
  insertAbove root tree fun child => makeBand mupa [child]

/-- `insertExtensionAbove(root, tree, extension)`. -/
def insertExtensionAbove (root : ScheduleTree) (tree : List Nat) (extension : ExtMap) :
    Except String (ScheduleTree × List Nat) :=
  insertAbove root tree fun child => node (.extension extension) [child]

/-- `insertEmptyExtensionAbove(root, st)`: an extension with the empty relation. -/
def insertEmptyExtensionAbove (root : ScheduleTree) (st : List Nat) : Except String (ScheduleTree × List Nat) :=
  match root.elem with
  | .domain _ => insertExtensionAbove root st ∅
  | _ => .error "Check failed: domain"

/-- `insertSequenceAbove(root, tree)`: a sequence whose one filter lets every instance of the spaces
active at the node through.  The parent is looked up before the active points are computed. -/
def insertSequenceAbove (I : Isl) (root : ScheduleTree) (tree : List Nat) :
    Except String (ScheduleTree × List Nat) :=
  if tree = [] then .error rootHasNoParent
  else do
    let filter ← activeDomainPoints I root tree
    insertAbove root tree fun child => node .sequence [node (.filter (USet.spaceUniverse filter)) [child]]

/-- `insertBandBelow(tree, mupa)`: the new subtree, and the position in it of the new band. -/
def insertBandBelow (tree : ScheduleTree) (mupa : Mupa) : Except String (ScheduleTree × List Nat) :=
  if tree.numChildren ≤ 1 then .ok (node tree.elem [makeBand mupa tree.children], [0])
  else .error "Check failed: numChildren <= 1"

/-- Modelled from the tree matchers, which are not in the source: `domain(context(any()))` matches a
Domain node whose only child is a Context node over one node of any kind. -/
def matchesDomainContext : ScheduleTree → Bool
  | node (.domain _) [node (.context _) [_]] => true
  | _ => false

/-- `updateTopLevelContext(root, context)`: unless the root matches `domain(context(any()))`, a Context
node on the universe of the parameter space takes all the root's children; the first child's context
is then intersected with `context`. -/
def updateTopLevelContext (root : ScheduleTree) (context : ParamSet) : Except String ScheduleTree :=
  let root := if matchesDomainContext root then root else node root.elem [node (.context Set.univ) root.children]
  match root with
  | node e (node (.context c) cs :: rest) => .ok (node e (node (.context (c ∩ context)) cs :: rest))
  | _ => .error "Expected domain(context(any()))"

/-- `swapSubtree(relativeRoot, tree, newTree)`: `newTree` takes the place of the node at `tree`, whose
subtree `newTree` hands back (`swapChild`); the position is that of the new subtree. -/
def swapSubtree (relativeRoot : ScheduleTree) (tree : List Nat) (newTree : ScheduleTree) :
    Except String (ScheduleTree × List Nat × ScheduleTree) :=
  if tree = [] then .error "Need a strict relative root to graft"
  else match relativeRoot.get? tree with
    | some old => .ok (relativeRoot.replaceAt tree newTree, tree, old)
    | none => .error noSuchNode

/-! ## What the insertions do -/

theorem swapSubtree_eq {root old : ScheduleTree} {tree : List Nat} (hne : tree ≠ []) (h : root.get? tree = some old)
    (newTree : ScheduleTree) : swapSubtree root tree newTree = .ok (root.replaceAt tree newTree, tree, old) := by
  simp only [swapSubtree, hne, if_false, h]

/-- **Swapping back restores the tree**: `swapSubtree` with the subtree it handed back undoes it. -/
theorem swapSubtree_swapSubtree {root root' new old : ScheduleTree} {tree tree' : List Nat}
    (h : swapSubtree root tree new = .ok (root', tree', old)) : swapSubtree root' tree' old = .ok (root, tree, new) := by
  by_cases hne : tree = []
  · simp [swapSubtree, hne] at h
  cases hold : root.get? tree with
  | none => simp [swapSubtree, hne, hold] at h
  | some o =>
    rw [swapSubtree_eq hne hold, Except.ok.injEq, Prod.mk.injEq, Prod.mk.injEq] at h
    obtain ⟨rfl, rfl, rfl⟩ := h
    have hnew := get?_replaceAt_append hold new []
    rw [List.append_nil, get?_nil] at hnew
    have hback := replaceAt_replaceAt_append root new o tree []
    rw [List.append_nil, replaceAt_nil, replaceAt_get?_self hold] at hback
    rw [swapSubtree_eq hne hnew, hback]

theorem swapSubtree_swapSubtree_leaf :
    ∃ root' old, swapSubtree (node .sequence [node .set []]) [0] (node (.filter ∅) []) = .ok (root', [0], old) ∧
      swapSubtree root' [0] old = .ok (node .sequence [node .set []], [0], node (.filter ∅) []) :=
  ⟨_, _, rfl, swapSubtree_swapSubtree rfl⟩

theorem insertAbove_eq {root s : ScheduleTree} {tree : List Nat} (hne : tree ≠ []) (h : root.get? tree = some s)
    (wrap : ScheduleTree → ScheduleTree) :
    insertAbove root tree wrap = .ok (root.replaceAt tree (wrap s), tree) := by
  simp only [insertAbove, hne, if_false, editAt, h]; rfl

theorem insertSequenceAbove_eq (I : Isl) {root s : ScheduleTree} {tree : List Nat} {A : USet} (hne : tree ≠ [])
    (h : root.get? tree = some s) (hA : activeDomainPoints I root tree = .ok A) :
    insertSequenceAbove I root tree =
      .ok (root.replaceAt tree (node .sequence [node (.filter (USet.spaceUniverse A)) [s]]), tree) := by
  simp only [insertSequenceAbove, hne, if_false, hA, bind, Except.bind, insertAbove_eq hne h]

theorem makeBand_eq_bandChain (mupa : Mupa) (children : List ScheduleTree) :
    makeBand mupa children = bandChain (Band.ofMupa mupa) [] children := rfl

/-! ## Wrapping a node in a placeholder

A node wrapped by `k` new nodes moves down by `k` steps along their first children, and so does its
subtree.  When the stretch of new nodes leaves the walk where it stands unchanged, every node keeps its
views: those outside the wrapped subtree at their position, those inside at the shifted one. -/

/-- What wrapping the node at `n` in `k` new nodes keeps: the views of every node not below `n`, and
those of every node of `n`'s subtree, itself included, at its position shifted by `k`. -/
structure KeepsViewsShifted (I : Isl) (root root' : ScheduleTree) (n : List Nat) (k : Nat) : Prop where
  outside : ∀ d, ¬ n <+: d →
    partialSchedule root' d = partialSchedule root d ∧ activeDomainPoints I root' d = activeDomainPoints I root d
  below : ∀ q,
    partialSchedule root' (n ++ List.replicate k 0 ++ q) = partialSchedule root (n ++ q) ∧
      activeDomainPoints I root' (n ++ List.replicate k 0 ++ q) = activeDomainPoints I root (n ++ q)

/-- A stretch `pre` of new nodes above the node at `n`, which the walk down to `n` passes unchanged,
keeps every view. -/
theorem keepsViewsShifted_of_wrap (I : Isl) (pre : List Elem) {D : USet} {cs : List ScheduleTree} {n : List Nat}
    {s new : ScheduleTree} {k : Nat} (hn : n ≠ []) (hs : (node (.domain D) cs).get? n = some s)
    (hpath : ∀ q, new.path (List.replicate k 0 ++ q) = (s.path q).map (pre ++ ·))
    (hanc : ∀ q, new.ancestors (List.replicate k 0 ++ q) = (s.ancestors q).map (pre ++ ·))
    (hpre : ∀ A, (node (.domain D) cs).ancestors n = some A → walk (walk ⟨none, D⟩ A) pre = walk ⟨none, D⟩ A) :
    KeepsViewsShifted I (node (.domain D) cs) ((node (.domain D) cs).replaceAt n new) n k := by
  obtain ⟨A, hA⟩ := Option.isSome_iff_exists.mp ((ancestors_isSome _ n).trans (by rw [hs]; rfl))
  have hw : ∀ es, walk ⟨none, D⟩ (A ++ (pre ++ es)) = walk ⟨none, D⟩ (A ++ es) := fun es => by
    rw [walk_append, walk_append, hpre A hA, ← walk_append]
  obtain ⟨cs', hcs'⟩ := exists_replaceAt_eq_node (.domain D) cs hn new
  refine ⟨fun d hd => ⟨?_, ?_⟩, fun q => ⟨?_, ?_⟩⟩
  · simp only [partialSchedule, ancestors_replaceAt_outside _ _ hd, elemAt_replaceAt_outside _ _ hd]
  · exact activeDomainPoints_congr I (by rw [hcs']; rfl) (congrArg _ (ancestors_replaceAt_outside _ _ hd))
  · rw [partialSchedule_eq_path, partialSchedule_eq_path, List.append_assoc, path_replaceAt_append hs,
      path_append hs, hA, hpath]
    cases s.path q with
    | none => rfl
    | some es => simp only [Option.some_bind, Option.map_some', partialScheduleImpl_eq_walk D, hw]
  · have ha := ancestors_replaceAt_append hs new (List.replicate k 0 ++ q)
    rw [hA, hanc, hcs'] at ha
    rw [hcs', List.append_assoc]
    cases hq : s.ancestors q with
    | none =>
      rw [activeDomainPoints_of_ancestors_none I (by rw [ha, hq]; rfl),
        activeDomainPoints_of_ancestors_none I (by rw [ancestors_append hs, hA, hq]; rfl)]
    | some es =>
      rw [activeDomainPoints_eq_walk I (by rw [ha, hq]; rfl : _ = some (A ++ (pre ++ es))),
        activeDomainPoints_eq_walk I (by rw [ancestors_append hs, hA, hq]; rfl : _ = some (A ++ es)), hw]

/-- The placeholder sequence above a node below the root keeps every view: its filter lets through every
instance active at the node, and the prefix schedule there is on active instances only. -/
theorem insertSequenceAbove_keepsViewsShifted (I : Isl) {D : USet} {cs : List ScheduleTree}
    (hdom : ∀ p d, p ≠ [] → (node (.domain D) cs).elemAt p ≠ some (.domain d)) {n : List Nat} (hn : n ≠ [])
    {s : ScheduleTree} (hs : (node (.domain D) cs).get? n = some s) :
    ∃ root', insertSequenceAbove I (node (.domain D) cs) n = .ok (root', n) ∧
      KeepsViewsShifted I (node (.domain D) cs) root' n 2 := by
  obtain ⟨A, hA⟩ := Option.isSome_iff_exists.mp ((ancestors_isSome _ n).trans (by rw [hs]; rfl))
  refine ⟨_, insertSequenceAbove_eq I hn hs (activeDomainPoints_eq_walk I hA),
    keepsViewsShifted_of_wrap I [.sequence, .filter (USet.spaceUniverse (walk ⟨none, D⟩ A).active)] hn hs
      (fun q => by simp [Function.comp_def]) (fun q => by simp [Function.comp_def]) fun A' hA' => ?_⟩
  obtain rfl := Option.some.inj (hA'.symm.trans hA)
  exact Walk.step_filter_of_subset (walk_ancestors_inside hdom hn hA) (USet.subset_spaceUniverse _)

/-- **Wrapping a node in a placeholder sequence or an empty extension changes no view**: under a
root that is the only Domain node, `insertSequenceAbove` and `insertExtensionAbove` with the empty
relation return normally at every node below the root, and every node keeps its partial schedule and
active points, those of the node's subtree two steps (resp. one step) further down.  The sequence's
filter lets through every instance active at the node, and the prefix schedule there is on active
instances only. -/
theorem wrapping_keeps_views (I : Isl) (D : USet) (cs : List ScheduleTree)
    (hdom : ∀ p d, p ≠ [] → (node (.domain D) cs).elemAt p ≠ some (.domain d)) {n : List Nat} (hn : n ≠ [])
    (hvalid : ((node (.domain D) cs).get? n).isSome) :
    (∃ root', insertSequenceAbove I (node (.domain D) cs) n = .ok (root', n) ∧
      KeepsViewsShifted I (node (.domain D) cs) root' n 2) ∧
    ∃ root', insertExtensionAbove (node (.domain D) cs) n ∅ = .ok (root', n) ∧
      KeepsViewsShifted I (node (.domain D) cs) root' n 1 := by
  obtain ⟨s, hs⟩ := Option.isSome_iff_exists.mp hvalid
  exact ⟨insertSequenceAbove_keepsViewsShifted I hdom hn hs, _, insertAbove_eq hn hs _,
    keepsViewsShifted_of_wrap I [.extension ∅] hn hs (fun q => by simp) (fun q => by simp)
      fun _ _ => Walk.step_extension_empty _⟩

/-- Wrapping the band of `nestedRoot`, under its filter and over its extension. -/
theorem wrapping_keeps_views_nestedRoot :
    ((∀ p d, p ≠ [] → nestedRoot.elemAt p ≠ some (.domain d)) ∧ [0, 0] ≠ [] ∧ (nestedRoot.get? [0, 0]).isSome) ∧
    (∃ root', insertSequenceAbove Isl.plain nestedRoot [0, 0] = .ok (root', [0, 0]) ∧
      KeepsViewsShifted Isl.plain nestedRoot root' [0, 0] 2) ∧
    ∃ root', insertExtensionAbove nestedRoot [0, 0] ∅ = .ok (root', [0, 0]) ∧
      KeepsViewsShifted Isl.plain nestedRoot root' [0, 0] 1 :=
  have hdom : ∀ p d, p ≠ [] → nestedRoot.elemAt p ≠ some (.domain d) := by
    intro p d hp
    rcases p with _ | ⟨_ | i, _ | ⟨_ | j, _ | ⟨_ | k, _ | ⟨_ | l, _ | ⟨m, q⟩⟩⟩⟩⟩ <;> simp [nestedRoot, elemAt] at hp ⊢
  ⟨⟨hdom, List.cons_ne_nil _ _, rfl⟩, wrapping_keeps_views Isl.plain _ _ hdom (List.cons_ne_nil _ _) rfl⟩

end Polyhedral
