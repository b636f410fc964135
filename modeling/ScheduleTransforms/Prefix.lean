import ScheduleTransforms.Label
/-!
# Prefix — the relational prefix schedule and the functional one agree

`prefixSchedule` folds the ancestors of a node into a relation from instances to coordinate tuples;
`prefixScheduleMupa` concatenates the functions of the bands above the node.  Along the walk down to
the node, the tuples the relation gives an instance are those the bands' functions give it, as long as
no extension on the way introduces the instance (`Walk.Tracks`, `walk_tracks`).  Under a root that is
the only Domain node, the relation is therefore a function on the instances no extension introduces,
the one `prefixScheduleMupa` computes (`prefixSchedule_agrees_with_mupa`).
-/
namespace Polyhedral

open ScheduleTree

/-- The tuples the walk's schedule relates `x` to are the coordinates `m` gives `x`, and `x` is an
instance of the root domain `D`. -/
def Walk.Tracks (x : Inst) (D : USet) (m : Mupa) (w : Walk) : Prop :=
  ∃ S, w.schedule = some S ∧ ∀ c, (x, c) ∈ S → x ∈ D ∧ m.eval x = some c

theorem Walk.Tracks.step {x : Inst} {D : USet} {m : Mupa} {w : Walk} (hw : w.Tracks x D m) {e : Elem}
    (he : ∀ d, e ≠ .domain d) (hx : ∀ ext, e = .extension ext → x ∉ ext.range) :
    (w.step e).Tracks x D (m ++ e.bandMupa) := by
  obtain ⟨S, hS, hm⟩ := hw
  cases e with
  | domain d => exact absurd rfl (he d)
  | band b =>
    by_cases hb : 0 < b.nMember
    · refine ⟨S.flatRangeProduct (UMap.fromMupa b.mupa),
        by simp [Walk.step, partialScheduleStep, extendSchedule, hS, hb], ?_⟩
      rintro _ ⟨c, d, hc, hd, rfl⟩
      obtain ⟨hxD, hmc⟩ := hm c hc
      refine ⟨hxD, ?_⟩
      rw [Elem.bandMupa, Mupa.eval_append, hmc, Option.some_bind, show b.mupa.eval x = some d from hd]
      rfl
    · have hz : b.mupa = [] := List.length_eq_zero.mp (Nat.eq_zero_of_not_pos hb)
      exact ⟨S, by simp [Walk.step, partialScheduleStep, extendSchedule, hS, hb],
        fun c hc => by simpa [Elem.bandMupa, hz] using hm c hc⟩
  | filter s | mappingFilter s _ =>
    exact ⟨S.intersectDomain s, by simp [Walk.step, partialScheduleStep, extendSchedule, hS],
      fun c hc => by simpa [Elem.bandMupa] using hm c hc.1⟩
  | extension ext =>
    refine ⟨S ∪ ext.reverse.intersectRange S.range,
      by simp [Walk.step, partialScheduleStep, extendSchedule, hS], ?_⟩
    rintro c (hc | ⟨hext, -⟩)
    · simpa [Elem.bandMupa] using hm c hc
    · exact absurd ⟨c, hext⟩ (hx ext rfl)
  | context _ | sequence | set =>
    exact ⟨S, by simp [Walk.step, partialScheduleStep, extendSchedule, hS],
      fun c hc => by simpa [Elem.bandMupa] using hm c hc⟩

theorem walk_tracks {x : Inst} {D : USet} {es : List Elem} (hes : ∀ e ∈ es, ∀ d, e ≠ .domain d)
    (hx : ∀ ext, Elem.extension ext ∈ es → x ∉ ext.range) {m : Mupa} {w : Walk} (hw : w.Tracks x D m) :
    (walk w es).Tracks x D (m ++ es.flatMap Elem.bandMupa) := by
  induction es generalizing m w with
  | nil => simpa using hw
  | cons e es ih =>
    simpa [List.append_assoc] using
      ih (fun e' he' => hes e' (List.mem_cons_of_mem _ he')) (fun ext h => hx ext (List.mem_cons_of_mem _ h))
        (hw.step (hes e (List.mem_cons_self _ _)) fun ext h => hx ext (h ▸ List.mem_cons_self _ _))

/-- **The relational and the functional prefix schedules agree**: under a root that is the only
Domain node, at every node below it, the prefix schedule relates an instance that no extension of the
tree introduces to at most one tuple, and to that tuple only when the instance is in the domain of
`prefixScheduleMupa` there, whose functions give it that tuple. -/
theorem prefixSchedule_agrees_with_mupa (D : USet) (cs : List ScheduleTree)
    (hdom : ∀ p d, p ≠ [] → (node (.domain D) cs).elemAt p ≠ some (.domain d)) {n : List Nat} (hn : n ≠ [])
    (hvalid : ((node (.domain D) cs).get? n).isSome) {x : Inst}
    (hext : ∀ p ext, (node (.domain D) cs).elemAt p = some (.extension ext) → x ∉ ext.range) :
    ∃ S U m, prefixSchedule (node (.domain D) cs) n = some S ∧
      prefixScheduleMupa (node (.domain D) cs) n = .ok (U, m) ∧
      (∀ c c', (x, c) ∈ S → (x, c') ∈ S → c = c') ∧ ∀ c, (x, c) ∈ S → x ∈ U ∧ m.eval x = some c := by
  obtain ⟨ancs, h⟩ := Option.isSome_iff_exists.mp ((ancestors_isSome _ n).trans hvalid)
  obtain ⟨rest, rfl, hrest⟩ := ancestors_eq_domain_cons hdom hn h
  have hx : ∀ ext, Elem.extension ext ∈ rest → x ∉ ext.range := fun ext he => by
    obtain ⟨p, hp⟩ := exists_elemAt_of_mem_ancestors h (List.mem_cons_of_mem _ he)
    exact hext p ext hp
  have h₀ : Walk.Tracks x D [] ⟨some (UMap.fromDomain D), D⟩ :=
    ⟨_, rfl, fun c hc => ⟨hc.1, by rw [show c = [] from hc.2]; rfl⟩⟩
  obtain ⟨S, hS, hm⟩ := walk_tracks hrest hx h₀
  refine ⟨S, USet.spaceUniverse D, rest.flatMap Elem.bandMupa, by rw [prefixSchedule_eq_walk h D]; exact hS,
    by simp [prefixScheduleMupa, h, Elem.bandMupa], fun c c' hc hc' => ?_, fun c hc => ?_⟩
  · exact Option.some.inj (((hm c hc).2).symm.trans (hm c' hc').2)
  · exact ⟨USet.subset_spaceUniverse D (hm c hc).1, by simpa using (hm c hc).2⟩

/-- `S[0]` under a band giving every instance the coordinate `0`, over a leaf. -/
def bandRoot : ScheduleTree :=
  node (.domain {⟨"S", [0]⟩}) [node (.band ⟨[fun _ => some 0], false, [false], [false]⟩) [node .sequence []]]

/-- The leaf of `bandRoot`, and `S[0]`. -/
theorem prefixSchedule_agrees_with_mupa_bandRoot :
    ((∀ p d, p ≠ [] → bandRoot.elemAt p ≠ some (.domain d)) ∧ [0, 0] ≠ [] ∧ (bandRoot.get? [0, 0]).isSome ∧
      ∀ p ext, bandRoot.elemAt p = some (.extension ext) → (⟨"S", [0]⟩ : Inst) ∉ ext.range) ∧
    ∃ S U m, prefixSchedule bandRoot [0, 0] = some S ∧ prefixScheduleMupa bandRoot [0, 0] = .ok (U, m) ∧
      (∀ c c', (⟨"S", [0]⟩, c) ∈ S → (⟨"S", [0]⟩, c') ∈ S → c = c') ∧
      ∀ c, (⟨"S", [0]⟩, c) ∈ S → ⟨"S", [0]⟩ ∈ U ∧ m.eval ⟨"S", [0]⟩ = some c :=
  have hdom : ∀ p d, p ≠ [] → bandRoot.elemAt p ≠ some (.domain d) := fun _ d hp =>
    (wellFormed_of_allPathsOk (rfl : bandRoot.elem.isDomain = true) (by decide)).elemAt_ne_domain hp d
  have hext : ∀ p ext, bandRoot.elemAt p = some (.extension ext) → (⟨"S", [0]⟩ : Inst) ∉ ext.range := by
    intro p ext h
    rcases p with _ | ⟨_ | i, _ | ⟨_ | j, _ | ⟨k, p⟩⟩⟩ <;> simp [elemAt, bandRoot] at h
  ⟨⟨hdom, List.cons_ne_nil _ _, rfl, hext⟩,
    prefixSchedule_agrees_with_mupa {Inst.mk "S" [0]}
      [node (.band ⟨[fun _ => some 0], false, [false], [false]⟩) [node .sequence []]] hdom (List.cons_ne_nil 0 [0]) rfl
      hext⟩

end Polyhedral
