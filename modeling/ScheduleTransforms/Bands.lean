import ScheduleTransforms.Tree
/-!
# Bands — joining and splitting bands

`joinBands` merges a band with its only child band, `joinBandsIterative` repeats the merge down a chain
of bands until it stops (`joinBandsIterativeLoop`, by well-founded recursion on the tree size),
`bandSplit` cuts a band's members at a position into a band and its only child band, and
`bandSplitOut` isolates one member by two such cuts.
-/
namespace Polyhedral

open ScheduleTree

/-- `std::vector::resize(n, v)`. -/
def vectorResize {α : Type} (l : List α) (n : Nat) (v : α) : List α :=
  l.take n ++ List.replicate (n - l.length) v

/-- The list without its entries `[pos, pos + n)`. -/
def dropRange {α : Type} (l : List α) (pos n : Nat) : List α := l.take pos ++ l.drop (pos + n)

/-- Modelled from the spec: `ScheduleTreeElemBand::drop(pos, n)`, which is not in the source, removes the
members `[pos, pos + n)` from the schedule function and from both flag vectors, which the spec keeps
as long as the member list. -/
def Band.drop (b : Band) (pos n : Nat) : Band where
  mupa := dropRange b.mupa pos n
  permutable := b.permutable
  coincident := dropRange b.coincident pos n
  unroll := dropRange b.unroll pos n

/-- The band `b` with the members of the nested band `c` appended: `flat_range_product` of the
functions, the nested band's coincident flags reset, its unroll flags kept. -/
def Band.join (b c : Band) : Band where
  mupa := b.mupa ++ c.mupa
  permutable := b.permutable
  coincident := vectorResize b.coincident (b.coincident.length + c.coincident.length) false
  unroll := b.unroll ++ c.unroll

/-- `joinBandsHelper`: if the band `st` has one child and it is a band, `st` takes its members and
`moveChildren` is set; the caller moves the children. -/
def joinBandsHelper (st : ScheduleTree) : Except String (ScheduleTree × Bool) :=
  match st with
  | node (.band eb) children =>
    match children with
    | [node (.band ebChild) cs] => .ok (node (.band (eb.join ebChild)) [node (.band ebChild) cs], true)
    | _ => .ok (st, false)
  | _ => .error "Check failed: st->elemAs<ScheduleTreeElemBand>()"

/-- `children = st->detachChildren(); st->appendChildren(children[0]->detachChildren())`. -/
def adoptGrandchildren (st : ScheduleTree) : Except String ScheduleTree :=
  match st.children with
  | [c] => .ok (node st.elem c.children)
  | _ => .error "expected a sequence of bands"

/-- `st->elemAs<ScheduleTreeElemBand>()->permutable_ = permutable`. -/
def setPermutable (st : ScheduleTree) (permutable : Bool) : ScheduleTree :=
  match st with
  | node (.band b) cs => node (.band { b with permutable }) cs
  | t => t

/-- `joinBands(st, permutable)`. -/
def joinBands (st : ScheduleTree) (permutable : Bool) : Except String ScheduleTree := do
  let (st, moveChildren) ← joinBandsHelper st
  let st ← if moveChildren then adoptGrandchildren st else pure st
  pure (setPermutable st permutable)

theorem size_adoptGrandchildren {st st' st'' : ScheduleTree} (h : joinBandsHelper st = .ok (st', true))
    (h' : adoptGrandchildren st' = .ok st'') : st''.size < st.size := by
  unfold joinBandsHelper at h
  split at h
  · split at h
    · cases h
      cases h'
      simp [size, sizeList]
    · cases h
  · cases h

/-- The `while (moveChildren)` loop of `joinBandsIterative`. -/
def joinBandsIterativeLoop (st : ScheduleTree) : Except String ScheduleTree :=
  match h : joinBandsHelper st with
  | .ok (st', true) =>
    match h' : adoptGrandchildren st' with
    | .ok st'' => joinBandsIterativeLoop st''
    | .error e => .error e
  | .ok (st', false) => .ok st'
  | .error e => .error e
termination_by st.size
decreasing_by exact size_adoptGrandchildren h h'

/-- The merges the loop of `joinBandsIterative` makes: its iterations with `moveChildren` set. -/
def joinBandsIterativeMerges (st : ScheduleTree) : Nat :=
  match h : joinBandsHelper st with
  | .ok (st', true) =>
    match h' : adoptGrandchildren st' with
    | .ok st'' => joinBandsIterativeMerges st'' + 1
    | .error _ => 1
  | _ => 0
termination_by st.size
decreasing_by exact size_adoptGrandchildren h h'

/-- `joinBandsIterative(st, permutable)`. -/
def joinBandsIterative (st : ScheduleTree) (permutable : Bool) : Except String ScheduleTree := do
  let st ← joinBandsIterativeLoop st
  pure (setPermutable st permutable)

/-- `bandSplit(relativeRoot, tree, pos)`, on the subtree at `tree` (the relative root is unused). -/
def bandSplit (tree : ScheduleTree) (pos : Nat) : Except String ScheduleTree :=
  match tree with
  | node (.band band) children =>
    let n := band.nMember
    if ¬ 0 < n then .error "no bands to split"
    else if ¬ pos ≤ n then .error "position out of bounds"
    else .ok (node (.band (band.drop pos (n - pos))) [node (.band (band.drop 0 pos)) children])
  | _ => .error "Not a band:\n"

/-- `bandSplitOut(relativeRoot, tree, pos)`: the new subtree and the position in it of the band
returned.  `schedule.dim(isl::dim_type::set) - 1` is taken in the integers. -/
def bandSplitOut (tree : ScheduleTree) (pos : Nat) : Except String (ScheduleTree × List Nat) :=
  match tree.elem with
  | .band band => do
    let tree ← if (pos : Int) ≠ band.nMember - 1 then bandSplit tree (pos + 1) else pure tree
    if pos ≠ 0 then
      let tree ← bandSplit tree pos
      pure (tree, [0])
    else pure (tree, [])
  | _ => .error "Check failed: band"

/-- The chain of bands `b, bs…`, each the only child of the one before, the last owning `cs`. -/
def bandChain : Band → List Band → List ScheduleTree → ScheduleTree
  | b, [], cs => node (.band b) cs
  | b, b' :: bs, cs => node (.band b) [bandChain b' bs cs]

/-! ## Lemmas beside the definitions -/

@[simp] theorem length_vectorResize {α : Type} (l : List α) (n : Nat) (v : α) : (vectorResize l n v).length = n := by
  simp only [vectorResize, List.length_append, List.length_take, List.length_replicate]; omega

theorem vectorResize_length_add {α : Type} (l : List α) (k : Nat) (v : α) :
    vectorResize l (l.length + k) v = l ++ List.replicate k v := by
  simp [vectorResize, List.take_of_length_le]

theorem mem_vectorResize {α : Type} {l : List α} {n : Nat} {v t : α} (h : t ∈ vectorResize l n v) :
    t ∈ l.take n ∨ t = v := by
  rcases List.mem_append.mp h with h | h
  · exact .inl h
  · exact .inr (List.eq_of_mem_replicate h)

theorem mem_vectorResize_of_mem_take {α : Type} {l : List α} {n : Nat} (v : α) {t : α} (h : t ∈ l.take n) :
    t ∈ vectorResize l n v :=
  List.mem_append_left _ h

theorem getElem?_vectorResize {α : Type} {l : List α} {n i : Nat} (v : α) (hi : i < n) (hil : i < l.length) :
    (vectorResize l n v)[i]? = l[i]? := by
  rw [vectorResize, List.getElem?_append_left (by simp; omega), List.getElem?_take_of_lt hi]

theorem vectorResize_of_le {α : Type} {l : List α} {n : Nat} (v : α) (h : n ≤ l.length) :
    vectorResize l n v = l.take n := by
  simp [vectorResize, Nat.sub_eq_zero_of_le h]

@[simp] theorem joinBandsHelper_band_band (b c : Band) (cs : List ScheduleTree) :
    joinBandsHelper (node (.band b) [node (.band c) cs]) =
      .ok (node (.band (b.join c)) [node (.band c) cs], true) := rfl

theorem joinBandsHelper_of_not_band {b : Band} {cs : List ScheduleTree}
    (hcs : ∀ c cs', cs ≠ [node (.band c) cs']) :
    joinBandsHelper (node (.band b) cs) = .ok (node (.band b) cs, false) := by
  simp only [joinBandsHelper]

@[simp] theorem joinBandsIterativeLoop_band_band (b c : Band) (cs : List ScheduleTree) :
    joinBandsIterativeLoop (node (.band b) [node (.band c) cs]) =
      joinBandsIterativeLoop (node (.band (b.join c)) cs) := by
  rw [joinBandsIterativeLoop]; rfl

@[simp] theorem joinBandsIterativeMerges_band_band (b c : Band) (cs : List ScheduleTree) :
    joinBandsIterativeMerges (node (.band b) [node (.band c) cs]) =
      joinBandsIterativeMerges (node (.band (b.join c)) cs) + 1 := by
  rw [joinBandsIterativeMerges]; rfl

theorem adoptGrandchildren_of_joinBandsHelper {st st' : ScheduleTree} (h : joinBandsHelper st = .ok (st', true)) :
    ∃ st'', adoptGrandchildren st' = .ok st'' := by
  unfold joinBandsHelper at h
  split at h
  · split at h
    · cases h; exact ⟨_, rfl⟩
    · cases h
  · cases h

theorem joinBandsIterativeMerges_of_merge {st st1 st2 : ScheduleTree} (h1 : joinBandsHelper st = .ok (st1, true))
    (h2 : adoptGrandchildren st1 = .ok st2) : joinBandsIterativeMerges st = joinBandsIterativeMerges st2 + 1 := by
  rw [joinBandsIterativeMerges]
  split <;> simp_all
  split <;> simp_all

theorem joinBandsIterativeMerges_of_not_merge {st : ScheduleTree} (h : ∀ st1, joinBandsHelper st ≠ .ok (st1, true)) :
    joinBandsIterativeMerges st = 0 := by
  rw [joinBandsIterativeMerges]
  split <;> simp_all

theorem joinBandsIterativeLoop_of_merge {st st1 st2 : ScheduleTree} (h1 : joinBandsHelper st = .ok (st1, true))
    (h2 : adoptGrandchildren st1 = .ok st2) : joinBandsIterativeLoop st = joinBandsIterativeLoop st2 := by
  rw [joinBandsIterativeLoop]
  split <;> simp_all
  split <;> simp_all

/-- **The loop of `joinBandsIterative` merges as often as `joinBandsIterativeMerges` counts**: it goes
through that many iterations that merge a band with its child band and move the grandchildren up, and
then stops at an iteration that merges nothing, returning what that iteration returns. -/
theorem joinBandsIterativeMerges_counts_iterations (st : ScheduleTree) :
    ∃ passes : List ScheduleTree, passes.length = joinBandsIterativeMerges st ∧
      List.Chain (fun r r' => ∃ r1, joinBandsHelper r = .ok (r1, true) ∧ adoptGrandchildren r1 = .ok r') st passes ∧
      (∀ r1, joinBandsHelper (passes.getLastD st) ≠ .ok (r1, true)) ∧
      joinBandsIterativeLoop st = joinBandsIterativeLoop (passes.getLastD st) := by
  induction st using joinBandsIterativeLoop.induct with
  | case1 st st1 h1 st2 h2 ih =>
    obtain ⟨passes, hlen, hchain, hlast, hloop⟩ := ih
    refine ⟨st2 :: passes, ?_, .cons ⟨st1, h1, h2⟩ hchain, ?_, ?_⟩
    · rw [joinBandsIterativeMerges_of_merge h1 h2, List.length_cons, hlen]
    · rwa [List.getLastD_cons]
    · rw [joinBandsIterativeLoop_of_merge h1 h2, hloop, List.getLastD_cons]
  | case2 st st1 h1 e h2 =>
    obtain ⟨_, h⟩ := adoptGrandchildren_of_joinBandsHelper h1
    rw [h] at h2
    cases h2
  | case3 st st1 h1 =>
    have hno : ∀ r1, joinBandsHelper st ≠ .ok (r1, true) := fun r1 h => by rw [h1] at h; cases h
    exact ⟨[], (joinBandsIterativeMerges_of_not_merge hno).symm, .nil, hno, rfl⟩
  | case4 st e h1 =>
    have hno : ∀ r1, joinBandsHelper st ≠ .ok (r1, true) := fun r1 h => by rw [h1] at h; cases h
    exact ⟨[], (joinBandsIterativeMerges_of_not_merge hno).symm, .nil, hno, rfl⟩

theorem bandChain_eq_node (b c : Band) (bs : List Band) (cs : List ScheduleTree) :
    bandChain b bs cs = node (.band b) (bandChain c bs cs).children := by
  cases bs <;> rfl

@[simp] theorem elem_bandChain (b : Band) (bs : List Band) (cs : List ScheduleTree) :
    (bandChain b bs cs).elem = .band b := by
  cases bs <;> rfl

/-- Below a chain, a node's ancestors are the chain's bands followed by its ancestors inside the last
band's children. -/
theorem ancestors_bandChain (b : Band) (bs : List Band) (cs : List ScheduleTree) (i : Nat) (q : List Nat) :
    (bandChain b bs cs).ancestors (List.replicate bs.length 0 ++ i :: q) =
      (cs[i]?.bind fun c => c.ancestors q).map ((b :: bs).map Elem.band ++ ·) := by
  induction bs generalizing b with
  | nil => cases h : cs[i]? <;> simp [bandChain, h]
  | cons c bs ih =>
    simp only [bandChain, List.length_cons, List.replicate_succ, List.cons_append, ancestors_cons,
      List.getElem?_cons_zero, Option.some_bind, ih, Option.map_map]
    rfl

theorem path_bandChain (b : Band) (bs : List Band) (cs : List ScheduleTree) (i : Nat) (q : List Nat) :
    (bandChain b bs cs).path (List.replicate bs.length 0 ++ i :: q) =
      (cs[i]?.bind fun c => c.path q).map ((b :: bs).map Elem.band ++ ·) := by
  induction bs generalizing b with
  | nil => cases h : cs[i]? <;> simp [bandChain, h]
  | cons c bs ih =>
    simp only [bandChain, List.length_cons, List.replicate_succ, List.cons_append, path_cons,
      List.getElem?_cons_zero, Option.some_bind, ih, Option.map_map]
    rfl

/-- The path to the last band of a chain is the chain. -/
theorem path_bandChain_bottom (b : Band) (bs : List Band) (cs : List ScheduleTree) :
    (bandChain b bs cs).path (List.replicate bs.length 0) = some ((b :: bs).map Elem.band) := by
  induction bs generalizing b with
  | nil => rfl
  | cons c bs ih =>
    simp only [bandChain, List.length_cons, List.replicate_succ, path_cons, List.getElem?_cons_zero,
      Option.some_bind, ih]
    rfl

/-- Every band heads a maximal chain of bands: the last one's children are not a single band. -/
theorem exists_maximal_bandChain (b : Band) (cs : List ScheduleTree) :
    ∃ bs cs', bandChain b bs cs' = node (.band b) cs ∧ ∀ c cs'', cs' ≠ [node (.band c) cs''] := by
  by_cases h : ∃ c cs', cs = [node (.band c) cs']
  · obtain ⟨c, cs', rfl⟩ := h
    obtain ⟨bs, cs'', hchain, hmax⟩ := exists_maximal_bandChain c cs'
    exact ⟨c :: bs, cs'', by rw [bandChain, hchain], hmax⟩
  · exact ⟨[], cs, rfl, fun c cs' hc => h ⟨c, cs', hc⟩⟩
termination_by (node (.band b) cs).size
decreasing_by subst_vars; simp [size, sizeList]

@[simp] theorem Band.drop_mupa (b : Band) (p k : Nat) : (b.drop p k).mupa = dropRange b.mupa p k := rfl
@[simp] theorem Band.drop_coincident (b : Band) (p k : Nat) :
    (b.drop p k).coincident = dropRange b.coincident p k := rfl
@[simp] theorem Band.drop_unroll (b : Band) (p k : Nat) : (b.drop p k).unroll = dropRange b.unroll p k := rfl

@[simp] theorem dropRange_zero {α : Type} (l : List α) (k : Nat) : dropRange l 0 k = l.drop k := by
  simp [dropRange]

theorem dropRange_sub {α : Type} {l : List α} {n pos : Nat} (hl : l.length = n) (h : pos ≤ n) :
    dropRange l pos (n - pos) = l.take pos := by
  simp [dropRange, Nat.add_sub_cancel' h, List.drop_eq_nil_of_le hl.le]

theorem take_append_getElem_append_drop {α : Type} (l : List α) {pos : Nat} (h : pos < l.length) :
    l.take pos ++ [l[pos]] ++ l.drop (pos + 1) = l := by
  rw [List.append_assoc, List.singleton_append, List.getElem_cons_drop, List.take_append_drop]

theorem bandSplit_band (b : Band) (C : List ScheduleTree) (pos : Nat) (hn : 0 < b.nMember)
    (hpos : pos ≤ b.nMember) :
    bandSplit (node (.band b) C) pos =
      .ok (bandChain (b.drop pos (b.nMember - pos)) [b.drop 0 pos] C) := by
  simp only [bandSplit, hn, hpos, not_true_eq_false, if_false]; rfl

theorem take_one_eq {α : Type} {l : List α} (h : 0 < l.length) : l.take 1 = [l[0]] := by
  cases l with
  | nil => cases h
  | cons a l => rfl

/-- `S[i, j] ↦ (i, j)`: two members, both coincident, the second unrolled. -/
def pairBand : Band where
  mupa := [fun x => x.iter[0]?, fun x => x.iter[1]?]
  permutable := false
  coincident := [true, true]
  unroll := [false, true]

/-! ## Split then join -/

/-- **Splitting a band and joining it back gives the band again**, up to the coincident flags of the
members that went to the nested band, which the join resets, and the permutable flag it sets. -/
theorem bandSplit_joinBands (b : Band) (C : List ScheduleTree) (pos : Nat) (p : Bool)
    (hn : 0 < b.nMember) (hpos : pos ≤ b.nMember) (hc : b.coincident.length = b.nMember)
    (hu : b.unroll.length = b.nMember) :
    (bandSplit (node (.band b) C) pos >>= fun t => joinBands t p) =
      .ok (node (.band
        { b with
          permutable := p
          coincident := b.coincident.take pos ++ List.replicate (b.nMember - pos) false }) C) := by
  have hm : b.mupa.length = b.nMember := rfl
  simp only [bandSplit, hn, hpos, not_true_eq_false, if_false]
  show Except.ok (setPermutable (node (.band ((b.drop pos (b.nMember - pos)).join (b.drop 0 pos))) C) p) = _
  simp only [setPermutable, Band.join, Band.drop, dropRange, Nat.add_sub_cancel' hpos, List.take_zero,
    List.nil_append, Nat.zero_add, List.drop_eq_nil_of_le hm.le, List.drop_eq_nil_of_le hc.le,
    List.drop_eq_nil_of_le hu.le, List.append_nil, List.take_append_drop, vectorResize_length_add,
    List.length_drop, hc]

theorem bandSplit_joinBands_pairBand :
    (0 < pairBand.nMember ∧ 1 ≤ pairBand.nMember ∧ pairBand.coincident.length = pairBand.nMember ∧
      pairBand.unroll.length = pairBand.nMember) ∧
    (bandSplit (node (.band pairBand) []) 1 >>= fun t => joinBands t true) =
      .ok (node (.band
        { pairBand with
          permutable := true
          coincident := pairBand.coincident.take 1 ++ List.replicate (pairBand.nMember - 1) false }) []) :=
  ⟨by decide, bandSplit_joinBands pairBand [] 1 true (by decide) (by decide) rfl rfl⟩

/-! ## Join then split -/

/-- **Joining a band with its nested band and splitting it back at the outer band's width gives the two
bands again**, up to the permutable flag, which the join sets on both, and the coincident flags of the
nested band, which the join resets. -/
theorem joinBands_bandSplit (b c : Band) (cs : List ScheduleTree) (p : Bool) (hn : 0 < b.nMember + c.nMember)
    (hb : b.coincident.length = b.nMember) (hbu : b.unroll.length = b.nMember)
    (hc : c.coincident.length = c.nMember) (hcu : c.unroll.length = c.nMember) :
    (joinBands (node (.band b) [node (.band c) cs]) p >>= fun t => bandSplit t b.nMember) =
      .ok (node (.band { b with permutable := p })
        [node (.band { c with permutable := p, coincident := List.replicate c.nMember false }) cs]) := by
  have hj : joinBands (node (.band b) [node (.band c) cs]) p = .ok (node (.band { b.join c with permutable := p }) cs) :=
    rfl
  have hB : ({ b.join c with permutable := p } : Band).nMember = b.nMember + c.nMember := by
    simp [Band.join, Band.nMember]
  rw [hj]
  change bandSplit (node (.band { b.join c with permutable := p }) cs) b.nMember = _
  rw [bandSplit_band _ cs b.nMember (by omega) (by omega), hB, Nat.add_sub_cancel_left]
  simp only [Band.nMember] at hb hbu hc hcu ⊢
  have hv : vectorResize b.coincident (b.mupa.length + c.mupa.length) false =
      b.coincident ++ List.replicate c.mupa.length false := by
    rw [← hb, ← hc]; exact vectorResize_length_add _ _ _
  simp [bandChain, Band.drop, Band.join, dropRange, hv, hb, hc, hbu, hcu]

theorem joinBands_bandSplit_pairBand :
    (0 < pairBand.nMember + pairBand.nMember ∧ pairBand.coincident.length = pairBand.nMember ∧
      pairBand.unroll.length = pairBand.nMember) ∧
    (joinBands (node (.band pairBand) [node (.band pairBand) []]) true >>= fun t => bandSplit t pairBand.nMember) =
      .ok (node (.band { pairBand with permutable := true })
        [node (.band { pairBand with permutable := true, coincident := List.replicate pairBand.nMember false }) []]) :=
  ⟨by decide, joinBands_bandSplit pairBand pairBand [] true (by decide) rfl rfl rfl rfl⟩

/-! ## A chain joined -/

theorem joinBandsIterativeLoop_bandChain {cs : List ScheduleTree} (hcs : ∀ c cs', cs ≠ [node (.band c) cs'])
    (b : Band) (bs : List Band) :
    joinBandsIterativeMerges (bandChain b bs cs) = bs.length ∧
      joinBandsIterativeLoop (bandChain b bs cs) = .ok (node (.band
        { b with
          mupa := b.mupa ++ (bs.map Band.mupa).flatten
          coincident := b.coincident ++ List.replicate (bs.map (·.coincident.length)).sum false
          unroll := b.unroll ++ (bs.map Band.unroll).flatten }) cs) := by
  induction bs generalizing b with
  | nil =>
    have h := joinBandsHelper_of_not_band (b := b) hcs
    refine ⟨?_, ?_⟩
    · rw [bandChain, joinBandsIterativeMerges]; split <;> simp_all
    · rw [bandChain, joinBandsIterativeLoop]; split <;> simp_all
  | cons c bs ih =>
    obtain ⟨hm, hl⟩ := ih (b.join c)
    rw [bandChain_eq_node (b.join c) c] at hm hl
    have hchain : bandChain b (c :: bs) cs = node (.band b) [node (.band c) (bandChain c bs cs).children] := by
      show node (.band b) [bandChain c bs cs] = _
      rw [← bandChain_eq_node c c]
    rw [hchain, joinBandsIterativeMerges_band_band, hm, joinBandsIterativeLoop_band_band, hl]
    refine ⟨rfl, ?_⟩
    simp only [Band.join, vectorResize_length_add, List.map_cons, List.flatten_cons, List.sum_cons,
      List.replicate_add, List.append_assoc]

/-- **`joinBandsIterative` folds a whole maximal chain of bands into its head**, in exactly as many
merges as the chain has nested bands: the functions and the unroll flags concatenated, the coincident
flags of the head kept and those of every nested band reset, the permutable flag set, and the last
band's children adopted. -/
theorem joinBandsIterative_bandChain (b : Band) (bs : List Band) (cs : List ScheduleTree) (p : Bool)
    (hcs : ∀ c cs', cs ≠ [node (.band c) cs']) (hflags : ∀ c ∈ bs, c.coincident.length = c.nMember) :
    joinBandsIterativeMerges (bandChain b bs cs) = bs.length ∧
      joinBandsIterative (bandChain b bs cs) p = .ok (node (.band
        { mupa := b.mupa ++ (bs.map Band.mupa).flatten
          permutable := p
          coincident := b.coincident ++ List.replicate (bs.map Band.nMember).sum false
          unroll := b.unroll ++ (bs.map Band.unroll).flatten }) cs) := by
  obtain ⟨hm, hl⟩ := joinBandsIterativeLoop_bandChain hcs b bs
  rw [List.map_congr_left hflags] at hl
  exact ⟨hm, by rw [joinBandsIterative, hl]; rfl⟩

theorem joinBandsIterative_bandChain_pairBand :
    ((∀ c cs', ([] : List ScheduleTree) ≠ [node (.band c) cs']) ∧
      ∀ c ∈ [pairBand, pairBand], c.coincident.length = c.nMember) ∧
    joinBandsIterativeMerges (bandChain pairBand [pairBand, pairBand] []) = 2 ∧
      joinBandsIterative (bandChain pairBand [pairBand, pairBand] []) true = .ok (node (.band
        { mupa := pairBand.mupa ++ ([pairBand, pairBand].map Band.mupa).flatten
          permutable := true
          coincident := pairBand.coincident ++ List.replicate ([pairBand, pairBand].map Band.nMember).sum false
          unroll := pairBand.unroll ++ ([pairBand, pairBand].map Band.unroll).flatten }) []) :=
  ⟨⟨fun _ _ h => List.noConfusion h, by decide⟩,
    joinBandsIterative_bandChain pairBand [pairBand, pairBand] [] true (fun _ _ h => List.noConfusion h)
      (by decide)⟩

/-- **`joinBandsIterative` is idempotent**: the band it leaves has no band as its only child, so a second
call changes nothing. -/
theorem joinBandsIterative_joinBandsIterative (b : Band) (C : List ScheduleTree) (p : Bool) :
    (joinBandsIterative (node (.band b) C) p >>= fun t => joinBandsIterative t p) =
      joinBandsIterative (node (.band b) C) p := by
  obtain ⟨bs, C', hchain, hmax⟩ := exists_maximal_bandChain b C
  rw [← hchain]
  obtain ⟨-, hl⟩ := joinBandsIterativeLoop_bandChain hmax b bs
  have hfix : ∀ B : Band, joinBandsIterativeLoop (node (.band B) C') = .ok (node (.band B) C') := fun B => by
    rw [joinBandsIterativeLoop]
    split <;> simp_all [joinBandsHelper_of_not_band hmax]
  simp only [joinBandsIterative, hl]
  change (joinBandsIterativeLoop (setPermutable (node (.band _) C') p) >>= _) = _
  rw [setPermutable, hfix]
  rfl

/-! ## One member split out -/

/-- The pieces of `l` that `bandSplitOut` cuts out around an entry that is neither first nor last. -/
theorem splitOut_interior {α : Type} {l : List α} {n pos : Nat} (hl : l.length = n) (hlt : pos + 1 < n) :
    dropRange (dropRange l (pos + 1) (n - (pos + 1))) pos 1 = l.take pos ∧
      (dropRange l (pos + 1) (n - (pos + 1))).drop pos = [l[pos]] := by
  rw [dropRange_sub hl hlt.le, List.drop_take, Nat.add_sub_cancel_left,
    List.take_one_drop_eq_of_lt_length (by omega), List.get_eq_getElem]
  simp [dropRange, List.take_take]

/-- … and around the last entry. -/
theorem splitOut_last {α : Type} {l : List α} {n pos : Nat} (hl : l.length = n) (hlast : pos + 1 = n) :
    dropRange l pos (n - pos) = l.take pos ∧ dropRange l 0 pos = [l[pos]] ∧ l.take pos ++ [l[pos]] = l := by
  have hsplit := take_append_getElem_append_drop l (show pos < l.length by omega)
  rw [List.drop_eq_nil_of_le (by omega), List.append_nil] at hsplit
  refine ⟨dropRange_sub hl (by omega), ?_, hsplit⟩
  rw [dropRange_zero, List.drop_eq_getElem_cons (by omega), List.drop_eq_nil_of_le (by omega)]

/-- What `bandSplitOut` makes of every per-member field of a band that `Band.drop` cuts: the chain
it returns, read top-down, cuts the field into pieces that concatenate back to it, the returned band's
piece being the requested entry alone. -/
theorem bandSplitOut_chain (b : Band) (C : List ScheduleTree) (pos : Nat) (hpos : pos < b.nMember) :
    ∃ t bs j, bandSplitOut (node (.band b) C) pos = .ok (bandChain t bs C, List.replicate j 0) ∧
      bs.length ≤ 2 ∧ j ≤ bs.length ∧
      ∀ {α : Type} (F : Band → List α), (∀ c p k, F (c.drop p k) = dropRange (F c) p k) →
        ∀ hF : (F b).length = b.nMember,
          (t :: bs)[j]?.map F = some [(F b)[pos]] ∧ ((t :: bs).map F).flatten = F b := by
  have hn : 0 < b.nMember := by omega
  rcases Nat.lt_or_ge (pos + 1) b.nMember with hlt | hge
  · have hsplit := bandSplit_band b C (pos + 1) hn hlt.le
    have hne : (pos : Int) ≠ b.nMember - 1 := by omega
    rcases Nat.eq_zero_or_pos pos with h0 | h0
    · -- the first member: one split, after it
      subst h0
      refine ⟨b.drop 1 (b.nMember - 1), [b.drop 0 1], 0, ?_, by simp, by simp, fun F hF hl => ?_⟩
      · simp only [bandSplitOut, elem_node]; rw [if_pos hne, hsplit]; rfl
      · simp only [List.getElem?_cons_zero, Option.map_some', List.map_cons, List.map_nil,
          List.flatten_cons, List.flatten_nil, List.append_nil, hF, dropRange_sub hl hlt.le, dropRange_zero]
        exact ⟨by rw [take_one_eq (by omega)], List.take_append_drop 1 _⟩
    · -- an interior member: split after it, then before it
      have hB1 : (b.drop (pos + 1) (b.nMember - (pos + 1))).nMember = pos + 1 := by
        have hm : b.mupa.length = b.nMember := rfl
        show (dropRange b.mupa (pos + 1) (b.nMember - (pos + 1))).length = pos + 1
        rw [dropRange_sub hm hlt.le, List.length_take]; omega
      have hsplit2 := bandSplit_band (b.drop (pos + 1) (b.nMember - (pos + 1)))
        [node (.band (b.drop 0 (pos + 1))) C] pos (by omega) (by omega)
      rw [hB1, Nat.add_sub_cancel_left] at hsplit2
      refine ⟨(b.drop (pos + 1) (b.nMember - (pos + 1))).drop pos 1,
        [(b.drop (pos + 1) (b.nMember - (pos + 1))).drop 0 pos, b.drop 0 (pos + 1)], 1, ?_, by simp, by simp,
        fun F hF hl => ?_⟩
      · simp only [bandSplitOut, elem_node]
        rw [if_pos hne, hsplit]
        change (if pos ≠ 0 then (bandSplit (node (.band (b.drop (pos + 1) (b.nMember - (pos + 1))))
          [node (.band (b.drop 0 (pos + 1))) C]) pos >>= fun tree => pure (tree, [0])) else _) = _
        rw [if_pos h0.ne', hsplit2]; rfl
      · obtain ⟨hA, hB⟩ := splitOut_interior hl hlt
        simp only [List.getElem?_cons_succ, List.getElem?_cons_zero, Option.map_some', List.map_cons,
          List.map_nil, List.flatten_cons, List.flatten_nil, List.append_nil, hF, dropRange_zero, hA, hB,
          ← List.append_assoc, take_append_getElem_append_drop, and_self]
  · have hlast : pos + 1 = b.nMember := by omega
    have heq : (pos : Int) = b.nMember - 1 := by omega
    rcases Nat.eq_zero_or_pos pos with h0 | h0
    · -- the only member: nothing to split
      subst h0
      refine ⟨b, [], 0, ?_, by simp, le_refl _, fun F _ hl => ?_⟩
      · simp only [bandSplitOut, elem_node]; rw [if_neg (not_not.mpr heq)]; rfl
      · have hone : F b = [(F b)[0]] := by rw [← take_one_eq (by omega), List.take_of_length_le (by omega)]
        exact ⟨congrArg some hone, by simp⟩
    · -- the last member: one split, before it
      have hsplit := bandSplit_band b C pos hn hpos.le
      refine ⟨b.drop pos (b.nMember - pos), [b.drop 0 pos], 1, ?_, by simp, le_refl _, fun F hF hl => ?_⟩
      · simp only [bandSplitOut, elem_node]
        rw [if_neg (not_not.mpr heq)]
        change (if pos ≠ 0 then (bandSplit (node (.band b) C) pos >>= fun tree => pure (tree, [0])) else _) = _
        rw [if_pos h0.ne', hsplit]; rfl
      · obtain ⟨hA, hB, hAB⟩ := splitOut_last hl hlast
        simp only [List.getElem?_cons_succ, List.getElem?_cons_zero, Option.map_some', List.map_cons,
          List.map_nil, List.flatten_cons, List.flatten_nil, List.append_nil, hF, hA, hB, hAB, and_self]

/-- **`bandSplitOut` isolates exactly the requested member**: the band it returns has that member
alone, with its flags, and it lies on a chain of one to three bands starting at the original node,
whose members and flags, read top-down, are the original ones, the last owning the original
children. -/
theorem bandSplitOut_isolates (b : Band) (C : List ScheduleTree) (pos : Nat) (hpos : pos < b.mupa.length)
    (hc : b.coincident.length = b.mupa.length) (hu : b.unroll.length = b.mupa.length) :
    ∃ t bs j, bandSplitOut (node (.band b) C) pos = .ok (bandChain t bs C, List.replicate j 0) ∧
      bs.length ≤ 2 ∧ j ≤ bs.length ∧
      (∃ r, (t :: bs)[j]? = some r ∧
        r.mupa = [b.mupa[pos]] ∧ r.coincident = [b.coincident[pos]] ∧ r.unroll = [b.unroll[pos]]) ∧
      ((t :: bs).map Band.mupa).flatten = b.mupa ∧
      ((t :: bs).map Band.coincident).flatten = b.coincident ∧
      ((t :: bs).map Band.unroll).flatten = b.unroll := by
  obtain ⟨t, bs, j, heq, hbs, hj, hF⟩ := bandSplitOut_chain b C pos hpos
  obtain ⟨hm, hm'⟩ := hF Band.mupa (fun _ _ _ => rfl) rfl
  obtain ⟨hc, hc'⟩ := hF Band.coincident (fun _ _ _ => rfl) hc
  obtain ⟨hu, hu'⟩ := hF Band.unroll (fun _ _ _ => rfl) hu
  obtain ⟨r, hr, hrm⟩ := Option.map_eq_some'.mp hm
  rw [hr, Option.map_some', Option.some.injEq] at hc hu
  exact ⟨t, bs, j, heq, hbs, hj, ⟨r, hr, hrm, hc, hu⟩, hm', hc', hu'⟩

theorem bandSplitOut_isolates_pairBand :
    (1 < pairBand.mupa.length ∧ pairBand.coincident.length = pairBand.mupa.length ∧
      pairBand.unroll.length = pairBand.mupa.length) ∧
    ∃ t bs j, bandSplitOut (node (.band pairBand) []) 1 = .ok (bandChain t bs [], List.replicate j 0) ∧
      bs.length ≤ 2 ∧ j ≤ bs.length ∧
      (∃ r, (t :: bs)[j]? = some r ∧ r.mupa = [pairBand.mupa[1]] ∧
        r.coincident = [pairBand.coincident[1]] ∧ r.unroll = [pairBand.unroll[1]]) ∧
      ((t :: bs).map Band.mupa).flatten = pairBand.mupa ∧
      ((t :: bs).map Band.coincident).flatten = pairBand.coincident ∧
      ((t :: bs).map Band.unroll).flatten = pairBand.unroll :=
  ⟨by decide, bandSplitOut_isolates pairBand [] 1 (by decide) rfl rfl⟩

end Polyhedral
