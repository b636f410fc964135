import ScheduleTransforms.Schedule
import ScheduleTransforms.Bands
/-!
# Views — splitting and joining bands keep what every other node sees

`bandSplit`, `bandSplitOut`, `joinBands` and `joinBandsIterative` each replace the chain of bands
headed by a node `t` with another chain over the same children, whose members, read top-down, are the
same.  Such a replacement keeps the partial schedule and the active points of every node outside the
chain (`KeepsViews`): of every node not below `t`, at its position, and of every node below the chain,
at its position shifted by the change in the chain's length; and it keeps the partial schedule of the
chain's last band (`keepsViews_replace_bandChain`).  Both views are read off the walk down to a node
(`activeDomainPoints_congr`, `partialSchedule_congr`), and a chain of bands walks as one band with all
its members (`walkOf_bands`), the bands without members included.
-/
namespace Polyhedral

open ScheduleTree

/-- What an edit of the chain of bands headed by `t` keeps, the old chain having `k` bands below its
head and the new one `k'`: the views of every node not below `t`, those of every node below the chain,
and the partial schedule of the chain's last band. -/
structure KeepsViews (I : Isl) (root root' : ScheduleTree) (t : List Nat) (k k' : Nat) : Prop where
  outside : ∀ d, ¬ t <+: d →
    partialSchedule root' d = partialSchedule root d ∧ activeDomainPoints I root' d = activeDomainPoints I root d
  below : ∀ i q,
    partialSchedule root' (t ++ List.replicate k' 0 ++ i :: q) =
        partialSchedule root (t ++ List.replicate k 0 ++ i :: q) ∧
      activeDomainPoints I root' (t ++ List.replicate k' 0 ++ i :: q) =
        activeDomainPoints I root (t ++ List.replicate k 0 ++ i :: q)
  bottom : partialSchedule root' (t ++ List.replicate k' 0) = partialSchedule root (t ++ List.replicate k 0)

section Chain

variable (I : Isl) {D : USet} {cs : List ScheduleTree} {t : List Nat} {C : List ScheduleTree}

/-- **Replacing a chain of bands by one with the same members keeps every view outside it.** -/
theorem keepsViews_replace_bandChain (b : Band) (bs : List Band) (b' : Band) (bs' : List Band)
    (ht : (node (.domain D) cs).get? t = some (bandChain b bs C))
    (hm : ((b :: bs).map Band.mupa).flatten = ((b' :: bs').map Band.mupa).flatten) :
    KeepsViews I (node (.domain D) cs) ((node (.domain D) cs).replaceAt t (bandChain b' bs' C)) t
      bs.length bs'.length := by
  obtain ⟨j, t', rfl⟩ : ∃ j t', t = j :: t' := by
    obtain _ | ⟨j, t'⟩ := t
    · simpa using congrArg (Option.map ScheduleTree.elem) ht
    · exact ⟨j, t', rfl⟩
  have hw : walkOf ((b' :: bs').map Elem.band) = walkOf ((b :: bs).map Elem.band) := by
    let B : Band := ⟨((b :: bs).map Band.mupa).flatten, false, [], []⟩
    rw [walkOf_bands (b :: bs) B rfl, walkOf_bands (b' :: bs') B hm]
  refine ⟨fun d hd => ⟨?_, ?_⟩, fun i q => ⟨?_, ?_⟩, ?_⟩
  · simp only [partialSchedule, ancestors_replaceAt_outside _ _ hd, elemAt_replaceAt_outside _ _ hd]
  · exact activeDomainPoints_congr I rfl (congrArg _ (ancestors_replaceAt_outside _ _ hd))
  · rw [List.append_assoc, List.append_assoc]
    refine partialSchedule_congr (path_replaceAt_congr walkOf_append ht ?_)
    rw [path_bandChain, path_bandChain]
    exact map_append_congr walkOf_append hw _
  · rw [List.append_assoc, List.append_assoc]
    refine activeDomainPoints_congr I rfl (ancestors_replaceAt_congr activeOf_append ht ?_)
    rw [ancestors_bandChain, ancestors_bandChain]
    exact map_append_congr activeOf_append hw _
  · refine partialSchedule_congr (path_replaceAt_congr walkOf_append ht ?_)
    rw [path_bandChain_bottom, path_bandChain_bottom, Option.map_some', Option.map_some', hw]

variable {b : Band}

theorem keepsViews_bandSplit (ht : (node (.domain D) cs).get? t = some (node (.band b) C)) {pos : Nat}
    (hn : 0 < b.nMember) (hpos : pos ≤ b.nMember) :
    ∃ root', (node (.domain D) cs).editAt t (bandSplit · pos) = .ok root' ∧
      KeepsViews I (node (.domain D) cs) root' t 0 1 := by
  have hm : b.mupa.length = b.nMember := rfl
  refine ⟨_, editAt_eq ht (bandSplit_band b C pos hn hpos),
    keepsViews_replace_bandChain I b [] _ [_] ht ?_⟩
  simp [dropRange_sub hm hpos]

theorem keepsViews_bandSplitOut (ht : (node (.domain D) cs).get? t = some (node (.band b) C)) {pos : Nat}
    (hpos : pos < b.nMember) :
    ∃ root' k, (node (.domain D) cs).editAt t (fun s => Prod.fst <$> bandSplitOut s pos) = .ok root' ∧
      KeepsViews I (node (.domain D) cs) root' t 0 k := by
  obtain ⟨top, bs, j, hsplit, -, -, hF⟩ := bandSplitOut_chain b C pos hpos
  refine ⟨_, bs.length, editAt_eq ht (by rw [hsplit]; rfl),
    keepsViews_replace_bandChain I b [] top bs ht ?_⟩
  rw [(hF Band.mupa (fun _ _ _ => rfl) rfl).2]
  simp

theorem keepsViews_joinBands (ht : (node (.domain D) cs).get? t = some (node (.band b) C)) (p : Bool) :
    ∃ root' k, (node (.domain D) cs).editAt t (joinBands · p) = .ok root' ∧
      KeepsViews I (node (.domain D) cs) root' t k 0 := by
  by_cases hC : ∃ c cs', C = [node (.band c) cs']
  · obtain ⟨c, cs', rfl⟩ := hC
    exact ⟨_, 1, editAt_eq ht rfl,
      keepsViews_replace_bandChain I b [c] { b.join c with permutable := p } [] ht (by simp [Band.join])⟩
  · have hj : joinBands (node (.band b) C) p = .ok (node (.band { b with permutable := p }) C) := by
      simp only [joinBands, joinBandsHelper_of_not_band fun c cs' h => hC ⟨c, cs', h⟩]; rfl
    exact ⟨_, 0, editAt_eq ht hj, keepsViews_replace_bandChain I b [] _ [] ht rfl⟩

theorem keepsViews_joinBandsIterative (ht : (node (.domain D) cs).get? t = some (node (.band b) C))
    (p : Bool) :
    ∃ root' k, (node (.domain D) cs).editAt t (joinBandsIterative · p) = .ok root' ∧
      KeepsViews I (node (.domain D) cs) root' t k 0 := by
  obtain ⟨bs, C', hchain, hmax⟩ := exists_maximal_bandChain b C
  rw [← hchain] at ht
  obtain ⟨-, hl⟩ := joinBandsIterativeLoop_bandChain hmax b bs
  obtain ⟨B, hj, hB⟩ : ∃ B : Band, joinBandsIterative (bandChain b bs C') p = .ok (bandChain B [] C') ∧
      B.mupa = b.mupa ++ (bs.map Band.mupa).flatten := ⟨_, by rw [joinBandsIterative, hl]; rfl, by rfl⟩
  exact ⟨_, bs.length, editAt_eq ht hj, keepsViews_replace_bandChain I b bs B [] ht (by simp [hB])⟩

end Chain

/-- **Splitting and joining bands keep the schedule**: under a Domain root, splitting the band at `t`
(`bandSplit`, at any position of a band with members), splitting out one of its members
(`bandSplitOut`), and joining it with its nested bands (`joinBands`, `joinBandsIterative`) all succeed,
and each keeps the partial schedule and the active points of every node outside the chain of bands it
edits, and the partial schedule of that chain's last band. -/
theorem splitJoin_keep_views (I : Isl) (D : USet) (cs : List ScheduleTree) (t : List Nat) (b : Band)
    (C : List ScheduleTree) (ht : (node (.domain D) cs).get? t = some (node (.band b) C)) :
    (∀ pos, 0 < b.nMember → pos ≤ b.nMember →
      ∃ root', (node (.domain D) cs).editAt t (bandSplit · pos) = .ok root' ∧
        KeepsViews I (node (.domain D) cs) root' t 0 1) ∧
    (∀ pos, pos < b.nMember →
      ∃ root' k, (node (.domain D) cs).editAt t (fun s => Prod.fst <$> bandSplitOut s pos) = .ok root' ∧
        KeepsViews I (node (.domain D) cs) root' t 0 k) ∧
    (∀ p, ∃ root' k, (node (.domain D) cs).editAt t (joinBands · p) = .ok root' ∧
      KeepsViews I (node (.domain D) cs) root' t k 0) ∧
    (∀ p, ∃ root' k, (node (.domain D) cs).editAt t (joinBandsIterative · p) = .ok root' ∧
      KeepsViews I (node (.domain D) cs) root' t k 0) :=
  ⟨fun _ hn hpos => keepsViews_bandSplit I ht hn hpos, fun _ hpos => keepsViews_bandSplitOut I ht hpos,
    keepsViews_joinBands I ht, keepsViews_joinBandsIterative I ht⟩

theorem splitJoin_keep_views_pairBand :
    (node (.domain {⟨"S", [0, 0]⟩}) [node (.band pairBand) [node .sequence []]]).get? [0] =
        some (node (.band pairBand) [node .sequence []]) ∧
    (∀ pos, 0 < pairBand.nMember → pos ≤ pairBand.nMember →
      ∃ root', (node (.domain {⟨"S", [0, 0]⟩}) [node (.band pairBand) [node .sequence []]]).editAt [0]
          (bandSplit · pos) = .ok root' ∧
        KeepsViews Isl.plain (node (.domain {⟨"S", [0, 0]⟩}) [node (.band pairBand) [node .sequence []]])
          root' [0] 0 1) ∧
    (∀ pos, pos < pairBand.nMember →
      ∃ root' k, (node (.domain {⟨"S", [0, 0]⟩}) [node (.band pairBand) [node .sequence []]]).editAt [0]
          (fun s => Prod.fst <$> bandSplitOut s pos) = .ok root' ∧
        KeepsViews Isl.plain (node (.domain {⟨"S", [0, 0]⟩}) [node (.band pairBand) [node .sequence []]])
          root' [0] 0 k) ∧
    (∀ p, ∃ root' k, (node (.domain {⟨"S", [0, 0]⟩}) [node (.band pairBand) [node .sequence []]]).editAt [0]
        (joinBands · p) = .ok root' ∧
      KeepsViews Isl.plain (node (.domain {⟨"S", [0, 0]⟩}) [node (.band pairBand) [node .sequence []]])
        root' [0] k 0) ∧
    (∀ p, ∃ root' k, (node (.domain {⟨"S", [0, 0]⟩}) [node (.band pairBand) [node .sequence []]]).editAt [0]
        (joinBandsIterative · p) = .ok root' ∧
      KeepsViews Isl.plain (node (.domain {⟨"S", [0, 0]⟩}) [node (.band pairBand) [node .sequence []]])
        root' [0] k 0) :=
  ⟨rfl, splitJoin_keep_views Isl.plain {⟨"S", [0, 0]⟩} [node (.band pairBand) [node .sequence []]] [0] pairBand
    [node .sequence []] rfl⟩

end Polyhedral
