import ScheduleTransforms.Tile
import ScheduleTransforms.Insert
/-!
# Active — band edits keep the active points below them, down to the first Extension

`bandTile`, `bandScale`, `insertBandAbove` and `insertBandBelow` change only bands on the way down to
a node below the edit.  Bands do not filter instances, so the active points of such a node are kept
(`activeDomainPoints_replace_bands`) as long as no Extension node lies on the way down from the edit:
an extension adds the instances its relation maps from the prefix coordinates above it, and these
coordinates are what the edit changes.  Inserting a band above an extension whose relation starts
from the empty coordinate tuple loses the instances it adds
(`insertBandAbove_drops_extension_instances`).
-/
namespace Polyhedral

open ScheduleTree

/-- No ancestor of the node at `d` from depth `k` on is an Extension node. -/
def NoExtensionBelow (root : ScheduleTree) (k : Nat) (d : List Nat) : Prop :=
  ∀ es, root.ancestors d = some es → ∀ e ∈ es.drop k, ∀ ext, e ≠ .extension ext

section Replace

variable (I : Isl) {root old new : ScheduleTree} {t p p' : List Nat} (E : List Elem) (bs bs' : List Band)
  {X : Option (List Elem)}

theorem noExtension_of_noExtensionBelow (ht : root.get? t = some old)
    (hold : old.ancestors p = X.map (E ++ bs.map .band ++ ·))
    (hno : NoExtensionBelow root (t.length + E.length + bs.length) (t ++ p)) {x : List Elem} (hx : X = some x) :
    ∀ e ∈ x, ∀ ext, e ≠ .extension ext := by
  obtain ⟨A, hA⟩ := Option.isSome_iff_exists.mp ((ancestors_isSome root t).trans (by rw [ht]; rfl))
  have hlen := length_of_ancestors hA
  intro e he ext
  refine hno (A ++ E ++ bs.map .band ++ x) ?_ e ?_ ext
  · rw [ancestors_append ht, hA, hold, hx]; simp
  · rw [List.drop_left' (by simp only [List.length_append, List.length_map, hlen])]; exact he

/-- **An edit that, below a common stretch of a node's path, only puts bands in the place of bands
keeps the node's active points when no Extension lies further down that path.** -/
theorem activeDomainPoints_replace_bands (hr : (root.replaceAt t new).elem = root.elem)
    (ht : root.get? t = some old) (hold : old.ancestors p = X.map (E ++ bs.map .band ++ ·))
    (hnew : new.ancestors p' = X.map (E ++ bs'.map .band ++ ·))
    (hno : NoExtensionBelow root (t.length + E.length + bs.length) (t ++ p)) :
    activeDomainPoints I (root.replaceAt t new) (t ++ p') = activeDomainPoints I root (t ++ p) := by
  refine activeDomainPoints_congr I hr (ancestors_replaceAt_congr activeOf_append ht ?_)
  rw [hold, hnew]
  cases hX : X with
  | none => rfl
  | some x =>
    have hx := noExtension_of_noExtensionBelow E bs ht hold hno hX
    simp only [Option.map_some', List.append_assoc, activeOf_append E, activeOf_bands_append _ hx]

end Replace

section Edits

variable (I : Isl) {D : USet} {cs : List ScheduleTree} {t : List Nat}

theorem bandTile_keeps_active {b : Band} {C : List ScheduleTree}
    (ht : (node (.domain D) cs).get? t = some (node (.band b) C)) (tileSizes : List UInt64)
    (tileOptions : TileOptions) (hperm : tileSizes ≠ [] → b.permutable)
    (hsize : ∀ s ∈ tileSizes.take b.nMember, s.toNat < 2 ^ 63) :
    ∃ root', (node (.domain D) cs).editAt t (bandTile · tileSizes tileOptions) = .ok root' ∧
      ∀ i q, NoExtensionBelow (node (.domain D) cs) (t.length + 1) (t ++ i :: q) →
        activeDomainPoints I root' (t ++ (if tileSizes = [] then [] else [0]) ++ i :: q) =
          activeDomainPoints I (node (.domain D) cs) (t ++ i :: q) := by
  obtain ⟨j, t', rfl⟩ := List.exists_cons_of_ne_nil (ne_nil_of_get? ht nofun)
  by_cases hts : tileSizes = []
  · subst hts
    refine ⟨_, editAt_eq ht rfl, fun i q hno => ?_⟩
    rw [if_pos rfl, List.append_nil]
    exact activeDomainPoints_replace_bands I [] [b] [b] rfl ht
      (ancestors_bandChain b [] C i q) (ancestors_bandChain b [] C i q) hno
  · obtain ⟨g, h, htile, -⟩ := bandTile_spec b C hts (hperm hts) tileOptions hsize
    refine ⟨_, editAt_eq ht htile, fun i q hno => ?_⟩
    rw [if_neg hts, List.append_assoc, List.singleton_append]
    exact activeDomainPoints_replace_bands I [] [b] [g, h] rfl ht
      (ancestors_bandChain b [] C i q) (ancestors_bandChain g [h] C i q) hno

theorem bandScale_keeps_active {b : Band} {C : List ScheduleTree}
    (ht : (node (.domain D) cs).get? t = some (node (.band b) C)) (scales : List UInt64) :
    ∃ root', (node (.domain D) cs).editAt t (bandScale · scales) = .ok root' ∧
      ∀ i q, NoExtensionBelow (node (.domain D) cs) (t.length + 1) (t ++ i :: q) →
        activeDomainPoints I root' (t ++ i :: q) = activeDomainPoints I (node (.domain D) cs) (t ++ i :: q) := by
  obtain ⟨j, t', rfl⟩ := List.exists_cons_of_ne_nil (ne_nil_of_get? ht nofun)
  refine ⟨_, editAt_eq ht rfl, fun i q hno => ?_⟩
  exact activeDomainPoints_replace_bands I [] [b] [_] rfl ht
    (ancestors_bandChain b [] C i q) (ancestors_bandChain _ [] C i q) hno

theorem insertBandAbove_keeps_active {s : ScheduleTree} (ht : (node (.domain D) cs).get? t = some s) (hne : t ≠ [])
    (mupa : Mupa) :
    ∃ root', insertBandAbove (node (.domain D) cs) t mupa = .ok (root', t) ∧
      ∀ q, NoExtensionBelow (node (.domain D) cs) t.length (t ++ q) →
        activeDomainPoints I root' (t ++ 0 :: q) = activeDomainPoints I (node (.domain D) cs) (t ++ q) := by
  obtain ⟨j, t', rfl⟩ := List.exists_cons_of_ne_nil hne
  refine ⟨_, insertAbove_eq hne ht _, fun q hno => ?_⟩
  have hold : s.ancestors q = (s.ancestors q).map ([] ++ ([] : List Band).map .band ++ ·) := by
    cases s.ancestors q <;> rfl
  exact activeDomainPoints_replace_bands I [] [] [_] rfl ht hold rfl hno

theorem insertBandBelow_keeps_active {s : ScheduleTree} (ht : (node (.domain D) cs).get? t = some s)
    (hs : s.numChildren ≤ 1) (mupa : Mupa) :
    ∃ root', (node (.domain D) cs).editAt t (fun s => Prod.fst <$> insertBandBelow s mupa) = .ok root' ∧
      ∀ i q, NoExtensionBelow (node (.domain D) cs) (t.length + 1) (t ++ i :: q) →
        activeDomainPoints I root' (t ++ 0 :: i :: q) = activeDomainPoints I (node (.domain D) cs) (t ++ i :: q) := by
  obtain ⟨e, C⟩ := s
  have hr : ((node (.domain D) cs).replaceAt t (node e [makeBand mupa C])).elem = (node (.domain D) cs).elem := by
    obtain _ | ⟨j, t'⟩ := t
    · simp only [get?_nil, Option.some.injEq, node.injEq] at ht
      exact ht.1.symm
    · exact elem_replaceAt_cons _ _ j t'
  refine ⟨_, editAt_eq ht (by simp only [insertBandBelow, hs, if_true]; rfl), fun i q hno => ?_⟩
  have hnew : (node e [makeBand mupa C]).ancestors (0 :: i :: q) =
      (C[i]?.bind fun c => c.ancestors q).map ([e] ++ [Band.ofMupa mupa].map .band ++ ·) := by
    rw [ancestors_cons, List.getElem?_cons_zero, Option.some_bind, makeBand, ancestors_cons_eq_map,
      Option.map_map]
    rfl
  exact activeDomainPoints_replace_bands I [e] [] [_] hr ht (ancestors_cons_eq_map e C i q) hnew hno

end Edits

/-- **Band edits keep the active points below them, down to the first Extension**: under a Domain
root, tiling a permutable band by sizes isl accepts (below `2^63`), scaling a band, and inserting a
band above a node or below a node with at most one child all succeed, and every node below the edit
(for `bandTile`, its copy under the new point band) keeps its active points when no Extension node lies
between the edit and it. -/
theorem bandEdits_keep_active (I : Isl) (D : USet) (cs : List ScheduleTree) (t : List Nat) :
    (∀ b C tileSizes tileOptions, (node (.domain D) cs).get? t = some (node (.band b) C) →
      (tileSizes ≠ [] → b.permutable) → (∀ s ∈ tileSizes.take b.nMember, s.toNat < 2 ^ 63) →
      ∃ root', (node (.domain D) cs).editAt t (bandTile · tileSizes tileOptions) = .ok root' ∧
        ∀ i q, NoExtensionBelow (node (.domain D) cs) (t.length + 1) (t ++ i :: q) →
          activeDomainPoints I root' (t ++ (if tileSizes = [] then [] else [0]) ++ i :: q) =
            activeDomainPoints I (node (.domain D) cs) (t ++ i :: q)) ∧
    (∀ b C scales, (node (.domain D) cs).get? t = some (node (.band b) C) →
      ∃ root', (node (.domain D) cs).editAt t (bandScale · scales) = .ok root' ∧
        ∀ i q, NoExtensionBelow (node (.domain D) cs) (t.length + 1) (t ++ i :: q) →
          activeDomainPoints I root' (t ++ i :: q) = activeDomainPoints I (node (.domain D) cs) (t ++ i :: q)) ∧
    (∀ s mupa, (node (.domain D) cs).get? t = some s → t ≠ [] →
      ∃ root', insertBandAbove (node (.domain D) cs) t mupa = .ok (root', t) ∧
        ∀ q, NoExtensionBelow (node (.domain D) cs) t.length (t ++ q) →
          activeDomainPoints I root' (t ++ 0 :: q) = activeDomainPoints I (node (.domain D) cs) (t ++ q)) ∧
    (∀ s mupa, (node (.domain D) cs).get? t = some s → s.numChildren ≤ 1 →
      ∃ root', (node (.domain D) cs).editAt t (fun s => Prod.fst <$> insertBandBelow s mupa) = .ok root' ∧
        ∀ i q, NoExtensionBelow (node (.domain D) cs) (t.length + 1) (t ++ i :: q) →
          activeDomainPoints I root' (t ++ 0 :: i :: q) = activeDomainPoints I (node (.domain D) cs) (t ++ i :: q)) :=
  ⟨fun _ _ tileSizes tileOptions ht hperm hsize => bandTile_keeps_active I ht tileSizes tileOptions hperm hsize,
    fun _ _ scales ht => bandScale_keeps_active I ht scales,
    fun _ mupa ht hne => insertBandAbove_keeps_active I ht hne mupa,
    fun _ mupa ht hs => insertBandBelow_keeps_active I ht hs mupa⟩

/-! ## An Extension below the edit -/

/-- `S[]`, under an extension that adds `L[]` at the empty coordinate tuple, over a leaf. -/
def extensionRoot : ScheduleTree :=
  node (.domain {⟨"S", []⟩}) [node (.extension {([], Inst.label "L")}) [node .sequence []]]

/-- **Inserting a band above an Extension node loses the instances it adds**: `L[]` reaches the leaf
under the extension, but once a band `S[] ↦ (0)` is put above the extension, the prefix coordinates
there are `(0)`, from which the extension's relation maps nothing. -/
theorem insertBandAbove_drops_extension_instances :
    ∃ root' A A', insertBandAbove extensionRoot [0] [fun _ => some 0] = .ok (root', [0]) ∧
      activeDomainPoints Isl.plain extensionRoot [0, 0] = .ok A ∧
      activeDomainPoints Isl.plain root' [0, 0, 0] = .ok A' ∧ Inst.label "L" ∈ A ∧ Inst.label "L" ∉ A' := by
  refine ⟨_, _, _, rfl, rfl, rfl, ?_, ?_⟩
  · simp [Inst.label, UMap.fromDomain]
  · simp [Inst.label, UMap.fromDomain, UMap.fromMupa, Mupa.eval, List.mapM, List.mapM.loop]

end Polyhedral
