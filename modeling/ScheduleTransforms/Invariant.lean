import ScheduleTransforms.Tile
import ScheduleTransforms.Label
import ScheduleTransforms.Order
import ScheduleTransforms.MergeChains
/-!
# Invariant — the transformations keep the tree well formed

Every transformation of the file puts a new subtree `s'` in the place of the subtree `s` at some
position below the root.  The tree stays well formed when every node of `s'` may sit below the root
(no Domain, band flags as long as the members) and every path of `s'` binds only ids that some path
of `s` binds, in the same order (`Covers`, `WellFormed.replaceAt`).  Each transformation's result
covers the subtree it replaces, built from the same few cases (`covers_node`, `covers_of_get?`,
`covers_bandChain`, `covers_gist`), so a run of transformations keeps a well-formed tree well formed
(`wellFormed_of_transforms`).  The merge loop is part of such a run on a subtree in chain shape only:
elsewhere it can bind an id twice (`mergeConsecutiveMappingFilters_binds_id_twice`).
-/
namespace Polyhedral

open ScheduleTree

/-- What well-formedness asks of a node below the root: no Domain, band flags as long as the members. -/
def Elem.ok (e : Elem) : Bool := !e.isDomain && e.flagsOk

/-- Every node of `t` may sit below the root. -/
def NodesOk (t : ScheduleTree) : Prop := ∀ q es, t.path q = some es → ∀ e ∈ es, e.ok = true

/-- Every node of `s'` may sit below the root, and every path of `s'` binds, after the ids `pre`, only
ids that some path of `s` binds, in the same order. -/
def Covers (pre : List MappingId) (s s' : ScheduleTree) : Prop :=
  ∀ q es, s'.path q = some es → (∀ e ∈ es, e.ok = true) ∧
    ∃ q0 es0, s.path q0 = some es0 ∧ (pre ++ es.flatMap Elem.mappingIds).Sublist (es0.flatMap Elem.mappingIds)

/-! ## One replacement -/

theorem ne_nil_of_ancestors {t : ScheduleTree} {p : List Nat} {anc : List Elem} (ha : t.ancestors p = some anc)
    (hne : p ≠ []) : anc ≠ [] := by
  rintro rfl
  exact hne (List.length_eq_zero.mp (length_of_ancestors ha).symm)

theorem path_append_of_get? {t s : ScheduleTree} {p : List Nat} (h : t.get? p = some s) :
    ∃ anc, t.ancestors p = some anc ∧ ∀ q es, s.path q = some es → t.path (p ++ q) = some (anc ++ es) := by
  obtain ⟨anc, ha⟩ := Option.isSome_iff_exists.mp ((ancestors_isSome t p).trans (by rw [h]; rfl))
  exact ⟨anc, ha, fun q es hq => by rw [path_append h, ha, Option.some_bind, hq, Option.map_some']⟩

/-- A path under a nonempty prefix of a well-formed path is well formed when its nodes may sit below the
root and its ids, after the prefix's, are bound in order on the well-formed path. -/
theorem pathOk_append {anc es es0 : List Elem} (hanc : anc ≠ []) (h : pathOk (anc ++ es0) = true)
    (hes : ∀ e ∈ es, e.ok = true)
    (hids : (anc.flatMap Elem.mappingIds ++ es.flatMap Elem.mappingIds).Sublist
      ((anc ++ es0).flatMap Elem.mappingIds)) :
    pathOk (anc ++ es) = true := by
  obtain ⟨a, anc, rfl⟩ := List.exists_cons_of_ne_nil hanc
  simp only [pathOk, List.cons_append, List.tail_cons, List.all_append, List.all_cons, Bool.and_eq_true,
    decide_eq_true_eq, List.flatMap_append] at h ⊢
  have hok : ∀ e ∈ es, (!e.isDomain) = true ∧ e.flagsOk = true := fun e he => by
    simpa [Elem.ok] using hes e he
  refine ⟨⟨⟨h.1.1.1, List.all_eq_true.mpr fun e he => (hok e he).1⟩, h.1.2.1, h.1.2.2.1,
    List.all_eq_true.mpr fun e he => (hok e he).2⟩, h.2.sublist ?_⟩
  rw [← List.cons_append, List.flatMap_append]
  exact hids

theorem WellFormed.pathOk_below {root s : ScheduleTree} (h : WellFormed root) {t : List Nat}
    (ht : root.get? t = some s) : ∃ anc, root.ancestors t = some anc ∧
      ∀ q es, s.path q = some es → pathOk (anc ++ es) = true := by
  obtain ⟨anc, ha, hp⟩ := path_append_of_get? ht
  exact ⟨anc, ha, fun q es hq => h.paths _ _ (hp q es hq)⟩

/-- Below the root of a well-formed tree, every node may sit below the root. -/
theorem WellFormed.nodesOk {root s : ScheduleTree} (h : WellFormed root) {t : List Nat} (ht : root.get? t = some s)
    (hne : t ≠ []) : NodesOk s := by
  obtain ⟨anc, ha, hp⟩ := h.pathOk_below ht
  obtain ⟨a, anc, rfl⟩ := List.exists_cons_of_ne_nil (ne_nil_of_ancestors ha hne)
  intro q es hq e he
  have := hp q es hq
  simp only [pathOk, List.cons_append, List.tail_cons, List.all_append, Bool.and_eq_true, List.all_eq_true] at this
  simp [Elem.ok, this.1.1.2 e he, this.1.2 e (by simp [he])]

/-- Only the root of a well-formed tree is a Domain node. -/
theorem WellFormed.ne_nil_of_get? {root s : ScheduleTree} (h : WellFormed root) {t : List Nat}
    (ht : root.get? t = some s) (hs : s.elem.isDomain = false) : t ≠ [] := by
  rintro rfl
  rw [get?_nil, Option.some.injEq] at ht
  rw [← ht, h.root_isDomain] at hs
  cases hs

/-- **A replacement that covers what it replaces keeps the tree well formed.** -/
theorem WellFormed.replaceAt {root s s' : ScheduleTree} (h : WellFormed root) {t : List Nat}
    (ht : root.get? t = some s) (hne : t ≠ []) (hc : Covers [] s s') : WellFormed (root.replaceAt t s') := by
  obtain ⟨anc, ha, hp⟩ := h.pathOk_below ht
  have hanc := ne_nil_of_ancestors ha hne
  obtain ⟨i, t', rfl⟩ := List.exists_cons_of_ne_nil hne
  refine ⟨by rw [elem_replaceAt_cons]; exact h.root_isDomain, fun p es hpath => ?_⟩
  by_cases hpre : i :: t' <+: p
  · obtain ⟨q, rfl⟩ := hpre
    rw [path_replaceAt_append ht, ha, Option.some_bind] at hpath
    obtain ⟨es', hq, rfl⟩ := Option.map_eq_some'.mp hpath
    obtain ⟨hok, q0, es0, hq0, hsub⟩ := hc q es' hq
    exact pathOk_append hanc (hp q0 es0 hq0) hok (by rw [List.flatMap_append]; exact (List.nil_append _ ▸ hsub).append_left _)
  · exact h.paths p es (by rwa [path_replaceAt_outside _ _ hpre] at hpath)

/-! ## Covers, case by case -/

theorem Covers.nodesOk {pre : List MappingId} {s s' : ScheduleTree} (h : Covers pre s s') : NodesOk s' :=
  fun q es hq => (h q es hq).1

theorem Covers.trans {pre : List MappingId} {s s1 s2 : ScheduleTree} (h1 : Covers [] s s1) (h2 : Covers pre s1 s2) :
    Covers pre s s2 := fun q es hq =>
  let ⟨hok, _, es1, hq1, hsub⟩ := h2 q es hq
  let ⟨_, q0, es0, hq0, hsub'⟩ := h1 _ es1 hq1
  ⟨hok, q0, es0, hq0, hsub.trans (by simpa using hsub')⟩

theorem nodesOk_of_get? {s c : ScheduleTree} (hs : NodesOk s) {p : List Nat} (hc : s.get? p = some c) : NodesOk c :=
  let ⟨_, _, hp⟩ := path_append_of_get? hc
  fun q es hq e he => hs _ _ (hp q es hq) e (List.mem_append_right _ he)

/-- A subtree covers itself where it sits, after ids bound above it. -/
theorem covers_of_get? {u c : ScheduleTree} (hc : NodesOk c) {p : List Nat} (hp : u.get? p = some c)
    {pre : List MappingId} (hpre : ∀ anc, u.ancestors p = some anc → pre.Sublist (anc.flatMap Elem.mappingIds)) :
    Covers pre u c := by
  obtain ⟨anc, ha, hpath⟩ := path_append_of_get? hp
  refine fun q es hq => ⟨hc q es hq, p ++ q, anc ++ es, hpath q es hq, ?_⟩
  rw [List.flatMap_append]
  exact (hpre anc ha).append (List.Sublist.refl _)

theorem covers_self {s : ScheduleTree} (hs : NodesOk s) : Covers [] s s :=
  covers_of_get? hs (get?_nil s) fun _ _ => List.nil_sublist _

/-- A node that may sit below the root, and binds after `pre` what some path binds, covers over
children that cover after its ids. -/
theorem covers_node {pre : List MappingId} {s : ScheduleTree} {e : Elem} {cs : List ScheduleTree} (he : e.ok = true)
    (hroot : ∃ q0 es0, s.path q0 = some es0 ∧ (pre ++ e.mappingIds).Sublist (es0.flatMap Elem.mappingIds))
    (hcs : ∀ c ∈ cs, Covers (pre ++ e.mappingIds) s c) : Covers pre s (node e cs) := by
  intro q es hq
  cases q with
  | nil =>
    rw [path_nil, Option.some.injEq] at hq
    subst hq
    obtain ⟨q0, es0, h0, hsub⟩ := hroot
    exact ⟨by simpa using he, q0, es0, h0, by simpa using hsub⟩
  | cons i q =>
    rw [path_cons] at hq
    obtain ⟨c, hc, hq⟩ := Option.bind_eq_some.mp hq
    obtain ⟨es', hq', rfl⟩ := Option.map_eq_some'.mp hq
    obtain ⟨hok, q0, es0, h0, hsub⟩ := hcs c (List.getElem?_mem hc) q es' hq'
    exact ⟨List.forall_mem_cons.mpr ⟨he, hok⟩, q0, es0, h0, by simpa [List.append_assoc] using hsub⟩

/-- A node binding no id, over children that cover. -/
theorem covers_node_nil {s : ScheduleTree} {e : Elem} {cs : List ScheduleTree} (he : e.ok = true)
    (hid : e.mappingIds = []) (hcs : ∀ c ∈ cs, Covers [] s c) : Covers [] s (node e cs) :=
  covers_node he ⟨[], _, path_nil s, by simp [hid]⟩ (by simpa [hid] using hcs)

/-- A node's new element, binding no id, over the node's children. -/
theorem covers_elem {e e' : Elem} {cs : List ScheduleTree} (hs : NodesOk (node e cs)) (he : e'.ok = true)
    (hid : e'.mappingIds = []) : Covers [] (node e cs) (node e' cs) :=
  covers_node_nil he hid fun c hc =>
    let ⟨i, hi⟩ := List.getElem?_of_mem hc
    have hg : (node e cs).get? [i] = some c := by simp [hi]
    covers_of_get? (nodesOk_of_get? hs hg) hg fun _ _ => List.nil_sublist _

theorem get?_bandChain (b : Band) (bs : List Band) (cs : List ScheduleTree) (i : Nat) (q : List Nat) :
    (bandChain b bs cs).get? (List.replicate bs.length 0 ++ i :: q) = cs[i]?.bind fun c => c.get? q := by
  induction bs generalizing b with
  | nil => rfl
  | cons c bs ih => simpa [bandChain, List.replicate_succ] using ih c

/-- **A chain of bands with flags as long as their members covers over children that cover.** -/
theorem covers_bandChain {s : ScheduleTree} {C : List ScheduleTree} (hC : ∀ c ∈ C, Covers [] s c) :
    ∀ (b : Band) (bs : List Band), (∀ c ∈ b :: bs, (Elem.band c).ok = true) → Covers [] s (bandChain b bs C)
  | b, [], h => covers_node_nil (h b (List.mem_cons_self _ _)) rfl hC
  | b, b' :: bs, h => covers_node_nil (h b (List.mem_cons_self _ _)) rfl
      (by simpa using covers_bandChain hC b' bs fun c hc => h c (List.mem_cons_of_mem _ hc))

theorem covers_bandChain_children {b : Band} {bs : List Band} {C : List ScheduleTree} (h : NodesOk (bandChain b bs C))
    {c : ScheduleTree} (hc : c ∈ C) : Covers [] (bandChain b bs C) c :=
  let ⟨i, hi⟩ := List.getElem?_of_mem hc
  have hg : (bandChain b bs C).get? (List.replicate bs.length 0 ++ [i]) = some c := by
    rw [get?_bandChain, hi]; simp
  covers_of_get? (nodesOk_of_get? h hg) hg fun _ _ => List.nil_sublist _

/-- The bands of a chain whose nodes may sit below the root. -/
theorem ok_of_bandChain {b : Band} {bs : List Band} {C : List ScheduleTree} (h : NodesOk (bandChain b bs C)) :
    ∀ c ∈ b :: bs, (Elem.band c).ok = true := fun _ hc =>
  h _ _ (path_bandChain_bottom b bs C) _ (List.mem_map_of_mem _ hc)

theorem NodesOk.elem {t : ScheduleTree} (h : NodesOk t) : t.elem.ok = true :=
  h [] _ (path_nil t) _ (List.mem_singleton_self _)

/-- **A chain of bands over the same children as a chain it replaces covers it.** -/
theorem covers_bandChain_bandChain (b : Band) (bs : List Band) (b' : Band) (bs' : List Band) {C : List ScheduleTree}
    (h : NodesOk (bandChain b bs C)) (h' : ∀ c ∈ b' :: bs', (Elem.band c).ok = true) :
    Covers [] (bandChain b bs C) (bandChain b' bs' C) :=
  covers_bandChain (fun _ hc => covers_bandChain_children h hc) b' bs' h'

@[simp] theorem Elem.ok_band (b : Band) :
    (Elem.band b).ok = true ↔ b.coincident.length = b.mupa.length ∧ b.unroll.length = b.mupa.length := by
  simp [Elem.ok, Elem.flagsOk, Elem.isDomain, Band.nMember]

/-! ## The band edits -/

theorem Elem.ok_band_drop {b : Band} (hb : (Elem.band b).ok = true) (p k : Nat) : (Elem.band (b.drop p k)).ok = true := by
  rw [Elem.ok_band] at hb ⊢
  simp [dropRange, hb.1, hb.2]

/-- What an in-place edit must do for the tree to stay well formed: it fails on a Domain node, and
what it returns covers the node's subtree. -/
def EditOk (f : ScheduleTree → Except String ScheduleTree) : Prop :=
  ∀ s s', f s = .ok s' → s.elem.isDomain = false ∧ (NodesOk s → Covers [] s s')

/-- **An edit that is fine keeps the tree well formed.** -/
theorem WellFormed.editAt {root root' : ScheduleTree} (h : WellFormed root) {t : List Nat}
    {f : ScheduleTree → Except String ScheduleTree} (hf : EditOk f) (he : root.editAt t f = .ok root') :
    WellFormed root' := by
  unfold ScheduleTree.editAt at he
  split at he
  · rename_i s hs
    cases hfs : f s with
    | error e => rw [hfs] at he; cases he
    | ok s' =>
      rw [hfs] at he
      cases he
      obtain ⟨hdom, hc⟩ := hf s s' hfs
      have hne := h.ne_nil_of_get? hs hdom
      exact h.replaceAt hs hne (hc (h.nodesOk hs hne))
  · cases he

theorem editOk_bandTile (tileSizes : List UInt64) (tileOptions : TileOptions) :
    EditOk (bandTile · tileSizes tileOptions) := by
  rintro s s' (h : bandTile s tileSizes tileOptions = .ok s')
  unfold bandTile at h
  split at h
  · rename_i b C
    refine ⟨rfl, fun hs => ?_⟩
    have hb := (Elem.ok_band b).mp hs.elem
    dsimp only at h
    split at h
    · cases h
      exact covers_self hs
    split at h
    · cases h
    split at h
    · cases h
    obtain ⟨g, hg, h⟩ := exists_of_bind_eq_ok h
    cases h
    refine covers_bandChain_bandChain b [] _ [_] hs ?_
    split_ifs <;> simp [Mupa.sub, Mupa.scaleMultiVal, Band.nMember, hb, length_tileMembers hg]
  · cases h

theorem editOk_bandScale (scales : List UInt64) : EditOk (bandScale · scales) := by
  rintro s s' (h : bandScale s scales = .ok s')
  unfold bandScale at h
  split at h
  · rename_i b C
    refine ⟨rfl, fun hs => ?_⟩
    have hb := (Elem.ok_band b).mp hs.elem
    cases h
    refine covers_bandChain_bandChain b [] _ [] hs ?_
    simp [Mupa.scaleMultiVal, Band.nMember, hb]
  · cases h

theorem editOk_bandSplit (pos : Nat) : EditOk (bandSplit · pos) := by
  rintro s s' (h : bandSplit s pos = .ok s')
  unfold bandSplit at h
  split at h
  · rename_i b C
    refine ⟨rfl, fun hs => ?_⟩
    have hb : (Elem.band b).ok = true := hs.elem
    dsimp only at h
    split_ifs at h
    cases h
    exact covers_bandChain_bandChain b [] _ [_] hs
      (List.forall_mem_cons.mpr ⟨Elem.ok_band_drop hb _ _, List.forall_mem_singleton.mpr (Elem.ok_band_drop hb _ _)⟩)
  · cases h

theorem editOk_bandSplitOut (pos : Nat) : EditOk (fun s => Prod.fst <$> bandSplitOut s pos) := by
  rintro s s' (h : Prod.fst <$> bandSplitOut s pos = .ok s')
  obtain ⟨⟨s'', j⟩, ho, rfl⟩ : ∃ r, bandSplitOut s pos = .ok r ∧ r.1 = s' := by
    cases hb : bandSplitOut s pos <;> rw [hb] at h <;> cases h
    exact ⟨_, rfl, rfl⟩
  unfold bandSplitOut at ho
  split at ho
  · rename_i heq
    refine ⟨by rw [heq]; rfl, fun hs => ?_⟩
    have hsplit := fun {s s'} h => (editOk_bandSplit pos s s' h).2
    have hsplit1 := fun {s s'} h => (editOk_bandSplit (pos + 1) s s' h).2
    dsimp only at ho
    split_ifs at ho <;> obtain ⟨s1, h1, ho⟩ := exists_of_bind_eq_ok ho
    · obtain ⟨s2, h2, ho⟩ := exists_of_bind_eq_ok ho
      cases ho
      exact (hsplit1 h1 hs).trans (hsplit h2 (hsplit1 h1 hs).nodesOk)
    · cases ho
      exact hsplit1 h1 hs
    · cases h1
      obtain ⟨s2, h2, ho⟩ := exists_of_bind_eq_ok ho
      cases ho
      exact hsplit h2 hs
    · cases h1
      cases ho
      exact covers_self hs
  · cases ho

theorem editOk_joinBands (permutable : Bool) : EditOk (joinBands · permutable) := by
  rintro s s' (h : joinBands s permutable = .ok s')
  obtain ⟨⟨s1, m⟩, h1, h⟩ := exists_of_bind_eq_ok h
  unfold joinBandsHelper at h1
  split at h1
  · rename_i b children
    refine ⟨rfl, fun hs => ?_⟩
    have hb := (Elem.ok_band b).mp hs.elem
    split at h1
    · rename_i c cs
      cases h1
      obtain ⟨s2, h2, h⟩ := exists_of_bind_eq_ok h
      cases h2
      cases h
      have hc := (Elem.ok_band c).mp (hs [0] [.band b, .band c] (by simp) _ (by simp))
      refine covers_bandChain_bandChain b [c] _ [] hs ?_
      simp [Band.join, hb, hc]
    · cases h1
      cases h
      exact covers_elem hs (by simpa using hb) rfl
  · cases h1

theorem editOk_joinBandsIterative (permutable : Bool) : EditOk (joinBandsIterative · permutable) := by
  rintro s s' (h : joinBandsIterative s permutable = .ok s')
  obtain ⟨s1, h1, h⟩ := exists_of_bind_eq_ok h
  cases h
  obtain ⟨e, C⟩ := s
  cases e
  case band b =>
    refine ⟨rfl, fun hs => ?_⟩
    obtain ⟨bs, C', hchain, hmax⟩ := exists_maximal_bandChain b C
    rw [← hchain] at hs h1 ⊢
    rw [(joinBandsIterativeLoop_bandChain hmax b bs).2] at h1
    cases h1
    have hok := ok_of_bandChain hs
    have hb := (Elem.ok_band b).mp (hok b (List.mem_cons_self _ _))
    have hc : (bs.map (·.coincident.length)) = bs.map (·.mupa.length) ∧
        (bs.map (·.unroll.length)) = bs.map (·.mupa.length) :=
      ⟨List.map_congr_left fun c hc => ((Elem.ok_band c).mp (hok c (List.mem_cons_of_mem _ hc))).1,
        List.map_congr_left fun c hc => ((Elem.ok_band c).mp (hok c (List.mem_cons_of_mem _ hc))).2⟩
    refine covers_bandChain_bandChain b bs _ [] hs ?_
    simp [setPermutable, List.length_flatten, List.map_map, Function.comp_def, hb, hc.1, hc.2]
  all_goals
    unfold joinBandsIterativeLoop at h1
    split at h1 <;> simp_all [joinBandsHelper]

/-! ## The insertions -/

theorem Elem.ok_ofMupa (mupa : Mupa) : (Elem.band (Band.ofMupa mupa)).ok = true := by
  simp [Band.ofMupa]

theorem covers_wrap {s : ScheduleTree} (hs : NodesOk s) {e : Elem} (he : e.ok = true) (hid : e.mappingIds = []) :
    Covers [] s (node e [s]) :=
  covers_node_nil he hid (List.forall_mem_singleton.mpr (covers_self hs))

/-- **Inserting nodes above a node keeps the tree well formed**, when they cover the node's subtree. -/
theorem WellFormed.insertAbove {root root' : ScheduleTree} (h : WellFormed root) {tree tree' : List Nat}
    {wrap : ScheduleTree → ScheduleTree} (hi : insertAbove root tree wrap = .ok (root', tree'))
    (hwrap : ∀ s, NodesOk s → Covers [] s (wrap s)) : WellFormed root' := by
  unfold Polyhedral.insertAbove at hi
  split_ifs at hi with hne
  obtain ⟨r, hr, hi⟩ := exists_of_bind_eq_ok hi
  cases hi
  unfold ScheduleTree.editAt at hr
  split at hr
  · rename_i s hs
    cases hr
    exact h.replaceAt hs hne (hwrap s (h.nodesOk hs hne))
  · cases hr

theorem wellFormed_insertBandAbove {root root' : ScheduleTree} {tree tree' : List Nat} {mupa : Mupa}
    (h : WellFormed root) (hi : insertBandAbove root tree mupa = .ok (root', tree')) : WellFormed root' :=
  h.insertAbove hi fun _ hs => covers_wrap hs (Elem.ok_ofMupa mupa) rfl

theorem wellFormed_insertExtensionAbove {root root' : ScheduleTree} {tree tree' : List Nat} {extension : ExtMap}
    (h : WellFormed root) (hi : insertExtensionAbove root tree extension = .ok (root', tree')) : WellFormed root' :=
  h.insertAbove hi fun _ hs => covers_wrap hs rfl rfl

theorem wellFormed_insertEmptyExtensionAbove {root root' : ScheduleTree} {st st' : List Nat} (h : WellFormed root)
    (hi : insertEmptyExtensionAbove root st = .ok (root', st')) : WellFormed root' := by
  unfold insertEmptyExtensionAbove at hi
  split at hi
  · exact wellFormed_insertExtensionAbove h hi
  · cases hi

theorem wellFormed_insertSequenceAbove {I : Isl} {root root' : ScheduleTree} {tree tree' : List Nat}
    (h : WellFormed root) (hi : insertSequenceAbove I root tree = .ok (root', tree')) : WellFormed root' := by
  unfold insertSequenceAbove at hi
  split_ifs at hi
  obtain ⟨_, -, hi⟩ := exists_of_bind_eq_ok hi
  exact h.insertAbove hi fun _ hs => covers_node_nil rfl rfl (List.forall_mem_singleton.mpr (covers_wrap hs rfl rfl))

/-- A well-formed tree stays so when its root gets children that cover, after the root's ids. -/
theorem WellFormed.replaceChildren {e : Elem} {cs cs' : List ScheduleTree} (h : WellFormed (node e cs))
    (hc : ∀ c ∈ cs', Covers e.mappingIds (node e cs) c) : WellFormed (node e cs') := by
  have hroot : pathOk [e] = true := h.paths [] [e] rfl
  refine ⟨h.root_isDomain, fun p es hp => ?_⟩
  cases p with
  | nil => rw [path_nil, Option.some.injEq] at hp; subst hp; exact hroot
  | cons i q =>
    rw [path_cons] at hp
    obtain ⟨c, hc', hp⟩ := Option.bind_eq_some.mp hp
    obtain ⟨es', hq, rfl⟩ := Option.map_eq_some'.mp hp
    obtain ⟨hok, q0, es0, h0, hsub⟩ := hc c (List.getElem?_mem hc') q es' hq
    have hok0 := h.paths q0 es0 h0
    simp only [pathOk, List.tail_cons, List.all_cons, List.all_nil, Bool.and_true, Bool.and_eq_true,
      decide_eq_true_eq, List.flatMap_cons] at hroot hok0 ⊢
    have hes : ∀ e ∈ es', (!e.isDomain) = true ∧ e.flagsOk = true := fun e he => by
      simpa [Elem.ok] using hok e he
    exact ⟨⟨List.all_eq_true.mpr fun e he => (hes e he).1, hroot.1.2,
      List.all_eq_true.mpr fun e he => (hes e he).2⟩, hok0.2.sublist hsub⟩

theorem covers_makeBand_children {e : Elem} {cs : List ScheduleTree} (hcs : ∀ (i : Nat) c, cs[i]? = some c → NodesOk c)
    (mupa : Mupa) : Covers e.mappingIds (node e cs) (makeBand mupa cs) :=
  covers_node (Elem.ok_ofMupa mupa) ⟨[], [e], path_nil _, by simp [Elem.mappingIds]⟩ fun c hc =>
    let ⟨i, hi⟩ := List.getElem?_of_mem hc
    have hg : (node e cs).get? [i] = some c := by simp [hi]
    covers_of_get? (hcs i c hi) hg fun anc ha => by
      simp only [ancestors_cons, hi, Option.some_bind, ancestors_nil, Option.map_some', Option.some.injEq] at ha
      subst ha
      simp [Elem.mappingIds]

/-- **`insertBandBelow` keeps the tree well formed**, at the root too. -/
theorem wellFormed_insertBandBelow {root root' : ScheduleTree} {t : List Nat} {mupa : Mupa} (h : WellFormed root)
    (hi : root.editAt t (fun s => Prod.fst <$> insertBandBelow s mupa) = .ok root') : WellFormed root' := by
  unfold ScheduleTree.editAt at hi
  split at hi
  · rename_i s hs
    obtain ⟨e, cs⟩ := s
    obtain rfl : root' = root.replaceAt t (node e [makeBand mupa cs]) := by
      unfold insertBandBelow at hi
      dsimp only at hi
      split_ifs at hi
      · exact (Except.ok.inj hi).symm
      · cases hi
    by_cases hne : t = []
    · subst hne
      rw [get?_nil, Option.some.injEq] at hs
      subst hs
      exact h.replaceChildren (List.forall_mem_singleton.mpr
        (covers_makeBand_children (fun i c hc => h.nodesOk (by simp [hc]) (List.cons_ne_nil i [])) mupa))
    · have hn := h.nodesOk hs hne
      exact h.replaceAt hs hne (covers_node hn.elem ⟨[], [e], path_nil _, by simp⟩
        (List.forall_mem_singleton.mpr (covers_makeBand_children
          (fun i c hc => nodesOk_of_get? hn (by simp [hc] : (node e cs).get? [i] = some c)) mupa)))
  · cases hi

/-- **`updateTopLevelContext` keeps the tree well formed**: the Context node it narrows, or puts between
the root and its children, binds no id. -/
theorem wellFormed_updateTopLevelContext {root root' : ScheduleTree} {context : ParamSet} (h : WellFormed root)
    (hu : updateTopLevelContext root context = .ok root') : WellFormed root' := by
  obtain ⟨e, cs⟩ := root
  have he : e.mappingIds = [] := by have := h.root_isDomain; cases e <;> simp_all [Elem.isDomain, Elem.mappingIds]
  have hcs : ∀ i c, cs[i]? = some c → Covers [] (node e cs) c := fun i c hi =>
    have hg : (node e cs).get? [i] = some c := by simp [hi]
    covers_of_get? (h.nodesOk hg (List.cons_ne_nil i [])) hg fun _ _ => List.nil_sublist _
  unfold updateTopLevelContext at hu
  split_ifs at hu with hm
  · obtain ⟨c0, x, rfl⟩ : ∃ c0 x, cs = [node (.context c0) [x]] := by
      match e, cs, hm with
      | .domain _, [node (.context c0) [x]], _ => exact ⟨c0, x, rfl⟩
    cases hu
    refine h.replaceChildren (List.forall_mem_singleton.mpr ?_)
    have h0 := hcs 0 _ rfl
    rw [he]
    exact h0.trans (covers_elem h0.nodesOk rfl rfl)
  · cases hu
    refine h.replaceChildren (List.forall_mem_singleton.mpr ?_)
    rw [he]
    exact covers_node_nil rfl rfl fun c hc => let ⟨i, hi⟩ := List.getElem?_of_mem hc; hcs i c hi

/-! ## Gist and the orderings -/

section Gist

variable {I : Isl} {C : USet}

theorem Elem.ok_gist (e : Elem) : (e.gist I C).ok = e.ok := by
  cases e <;> simp [Elem.gist, Elem.ok, Elem.isDomain, Elem.flagsOk, Band.nMember]

theorem flatMap_mappingIds_map_gist (es : List Elem) :
    (es.map (Elem.gist I C)).flatMap Elem.mappingIds = es.flatMap Elem.mappingIds := by
  induction es with
  | nil => rfl
  | cons e es ih => rw [List.map_cons, List.flatMap_cons, List.flatMap_cons, ih]; cases e <;> rfl

/-- Every path of a gisted tree is a path of the tree, each element simplified. -/
theorem exists_path_of_path_gist :
    ∀ {t : ScheduleTree} {q : List Nat} {es : List Elem}, (gist I C t).path q = some es →
      ∃ q0 es0, t.path q0 = some es0 ∧ es = es0.map (Elem.gist I C)
  | t, [], es, h => by
    rw [path_nil, Option.some.injEq, elem_gist] at h
    exact ⟨[], _, path_nil t, by simp [← h]⟩
  | node e cs, i :: q, es, h => by
    rw [gist, path_cons] at h
    obtain ⟨c', hc', h⟩ := Option.bind_eq_some.mp h
    obtain ⟨es', hq, rfl⟩ := Option.map_eq_some'.mp h
    have hmem : c' ∈ cs.map (gist I C) := by
      have := List.getElem?_mem hc'
      rw [gistList_eq_map] at this
      split_ifs at this <;> simp_all [List.mem_filter]
    obtain ⟨c, hc, rfl⟩ := List.mem_map.mp hmem
    obtain ⟨j, hj⟩ := List.getElem?_of_mem hc
    obtain ⟨q0, es0, h0, rfl⟩ := exists_path_of_path_gist hq
    exact ⟨j :: q0, e :: es0, by simp [hj, h0], rfl⟩

/-- **A gisted subtree covers the subtree.** -/
theorem covers_gist {t : ScheduleTree} (ht : NodesOk t) : Covers [] t (gist I C t) := fun _ _ hq =>
  let ⟨q0, es0, h0, heq⟩ := exists_path_of_path_gist hq
  ⟨fun e he => by
    subst heq
    obtain ⟨e0, he0, rfl⟩ := List.mem_map.mp he
    rw [Elem.ok_gist]
    exact ht q0 es0 h0 e0 he0,
   q0, es0, h0, by rw [heq, flatMap_mappingIds_map_gist]; exact List.Sublist.refl _⟩

theorem covers_gistedFilter {t : ScheduleTree} (ht : NodesOk t) (F : USet) : Covers [] t (gistedFilter I F t) :=
  covers_node_nil rfl rfl (List.forall_mem_singleton.mpr (covers_gist ht))

/-- **`gist` of any subtree keeps the tree well formed**: it simplifies sets and functions in place and
drops nodes, so every path it leaves is one the tree had. -/
theorem wellFormed_gist {root s : ScheduleTree} {t : List Nat} (h : WellFormed root) (ht : root.get? t = some s) :
    WellFormed (root.replaceAt t (gist I C s)) := by
  by_cases hne : t = []
  · subst hne
    rw [get?_nil, Option.some.injEq] at ht
    subst ht
    obtain ⟨e, cs⟩ := root
    obtain ⟨D, rfl⟩ : ∃ D, e = .domain D := by
      have := h.root_isDomain
      cases e <;> first | exact ⟨_, rfl⟩ | cases this
    rw [replaceAt_nil, gist_node_of_emptyFilter_eq_false (I := I) (C := C) (e := .domain D) cs rfl]
    refine h.replaceChildren fun c' hc' => ?_
    obtain ⟨c, hc, rfl⟩ := List.mem_map.mp hc'
    obtain ⟨i, hi⟩ := List.getElem?_of_mem hc
    have hg : (node (.domain D) cs).get? [i] = some c := by simp [hi]
    have hn := h.nodesOk hg (List.cons_ne_nil i [])
    exact (covers_of_get? hn hg fun _ _ => List.nil_sublist _).trans (covers_gist hn)
  · exact h.replaceAt ht hne (covers_gist (h.nodesOk ht hne))

/-- `orderBefore` and `orderAfter` keep the tree well formed: the sequence they put in the node's place
holds two gisted copies of it under filters. -/
theorem wellFormed_orderNear {root root' : ScheduleTree} {tree : List Nat} {filter : USet}
    {order : ScheduleTree → ScheduleTree → List ScheduleTree} (h : WellFormed root)
    (ho : orderNear I root tree filter order = .ok root') (horder : ∀ a b, ∀ c ∈ order a b, c = a ∨ c = b) :
    WellFormed root' := by
  obtain ⟨A, -, ho⟩ := exists_of_bind_eq_ok ho
  dsimp only at ho
  split at ho
  · cases ho
  · rename_i t ht
    split_ifs at ho with hne
    cases ho
    refine h.replaceAt ht hne (covers_node_nil rfl rfl fun c hc => ?_)
    rcases horder _ _ c hc with rfl | rfl <;> exact covers_gistedFilter (h.nodesOk ht hne) _

theorem wellFormed_orderBefore {root root' : ScheduleTree} {tree : List Nat} {filter : USet} (h : WellFormed root)
    (ho : orderBefore I root tree filter = .ok root') : WellFormed root' :=
  wellFormed_orderNear h ho fun _ _ _ hc => by simpa using hc

theorem wellFormed_orderAfter {root root' : ScheduleTree} {tree : List Nat} {filter : USet} (h : WellFormed root)
    (ho : orderAfter I root tree filter = .ok root') : WellFormed root' :=
  wellFormed_orderNear h ho fun _ _ _ hc => by simp at hc; exact hc.symm

end Gist

/-! ## The label insertions -/

theorem mem_of_mem_insertIdx {α : Type} {a b : α} {l : List α} {n : Nat} (h : a ∈ l.insertIdx n b) :
    a = b ∨ a ∈ l := by
  by_cases hn : n ≤ l.length
  · exact (List.mem_insertIdx hn).mp h
  · rw [List.insertIdx_of_length_lt l b n (by omega)] at h
    exact .inr h

theorem insertAbove_ok {root r : ScheduleTree} {tree t' : List Nat} {wrap : ScheduleTree → ScheduleTree}
    (hi : insertAbove root tree wrap = .ok (r, t')) : tree ≠ [] ∧ t' = tree := by
  unfold insertAbove at hi
  split_ifs at hi with hne
  obtain ⟨_, -, hi⟩ := exists_of_bind_eq_ok hi
  cases hi
  exact ⟨hne, rfl⟩

/-- The extension above a sequence, found or inserted, leaves the tree well formed, below the root and
right above the sequence. -/
theorem extensionAbove_wellFormed {root root1 : ScheduleTree} {seqNode ε σ : List Nat} (h : WellFormed root)
    (hea : extensionAbove root seqNode = .ok (root1, ε, σ)) : WellFormed root1 ∧ ε ≠ [] ∧ ∃ m, σ = ε ++ [m] := by
  unfold extensionAbove at hea
  split at hea
  · rename_i hext
    cases hea
    obtain ⟨s, hs, hse⟩ := Option.map_eq_some'.mp hext
    have hε := h.ne_nil_of_get? hs (by rw [hse]; rfl)
    exact ⟨h, hε, _, (List.dropLast_append_getLast (fun h0 => hε (by rw [h0]; rfl))).symm⟩
  · obtain ⟨⟨r, et⟩, hins, hea⟩ := exists_of_bind_eq_ok hea
    have hpos : seqNode ≠ [] ∧ et = seqNode := by
      unfold insertEmptyExtensionAbove at hins
      split at hins
      · exact insertAbove_ok hins
      · cases hins
    obtain ⟨hne, rfl⟩ := hpos
    cases hea
    exact ⟨wellFormed_insertEmptyExtensionAbove h hins, hne, 0, rfl⟩

/-- **`insertExtensionLabelAt` keeps the tree well formed.** -/
theorem wellFormed_insertExtensionLabelAt {root root' : ScheduleTree} {seqNode : List Nat} {pos : Nat} {id : Id}
    (h : WellFormed root) (hi : insertExtensionLabelAt root seqNode pos id = .ok root') : WellFormed root' := by
  unfold insertExtensionLabelAt at hi
  split_ifs at hi with hne
  obtain ⟨⟨root1, ε, σ⟩, hea, hi⟩ := exists_of_bind_eq_ok hi
  obtain ⟨h1, hε, m, rfl⟩ := extensionAbove_wellFormed h hea
  dsimp only at hi
  split at hi
  · rename_i ext ecs scs he hs
    obtain ⟨⟨_, pre⟩, -, hi⟩ := exists_of_bind_eq_ok hi
    cases hi
    have h2 : WellFormed (root1.replaceAt ε (node (.extension (ext ∪ ExtMap.labelUniverse pre.length id)) ecs)) :=
      h1.replaceAt he hε (covers_elem (h1.nodesOk he hε) rfl rfl)
    have hs2 : (root1.replaceAt ε (node (.extension (ext ∪ ExtMap.labelUniverse pre.length id)) ecs)).get? (ε ++ [m]) =
        some (node .sequence scs) := by
      rw [get?_replaceAt_append he, ← hs, get?_append, he]; rfl
    refine h2.replaceAt hs2 (by simp) (covers_node_nil rfl rfl fun c hc => ?_)
    rcases mem_of_mem_insertIdx hc with rfl | hc
    · exact covers_node_nil rfl rfl fun _ h => absurd h (List.not_mem_nil _)
    · obtain ⟨j, hj⟩ := List.getElem?_of_mem hc
      have hg : (node .sequence scs).get? [j] = some c := by simp [hj]
      exact covers_of_get? (nodesOk_of_get? (h2.nodesOk hs2 (by simp)) hg) hg fun _ _ => List.nil_sublist _
  all_goals cases hi

/-- **`insertExtensionLabelBefore` and `insertExtensionLabelAfter` keep the tree well formed**, whether
they insert the label into the sequence at the node, into the sequence above its filter, or into a
sequence they insert above it. -/
theorem wellFormed_insertExtensionLabelNear {I : Isl} {root root' : ScheduleTree} {tree : List Nat} {id : Id}
    {atSequence atFilter : Nat → Nat} {atNew : Nat} (h : WellFormed root)
    (hi : insertExtensionLabelNear I root tree id atSequence atFilter atNew = .ok root') : WellFormed root' := by
  have hnew : ∀ {t}, (do let (r, s) ← insertSequenceAbove I root t; insertExtensionLabelAt r s atNew id) = .ok root' →
      WellFormed root' := fun hi =>
    let ⟨_, h1, hi⟩ := exists_of_bind_eq_ok hi
    wellFormed_insertExtensionLabelAt (wellFormed_insertSequenceAbove h h1) hi
  unfold insertExtensionLabelNear at hi
  split_ifs at hi
  dsimp only at hi
  split at hi
  · exact wellFormed_insertExtensionLabelAt h hi
  · split_ifs at hi
    · exact wellFormed_insertExtensionLabelAt h hi
    · exact hnew hi
    · exact hnew hi

/-! ## The merge loop on chains -/

/-- Merging a mapping filter into the mapping filter above it, its only child, with the filter's first
child in its place, keeps the tree well formed: the merged node binds on every path through it the ids
the two did. -/
theorem WellFormed.merge {root c : ScheduleTree} {rest : List ScheduleTree} {p : List Nat} {ps fs : USet}
    {pids fids : List MappingId} (h : WellFormed root)
    (hp : root.get? p = some (node (.mappingFilter ps pids) [node (.mappingFilter fs fids) (c :: rest)])) :
    WellFormed (root.replaceAt p (node (.mappingFilter (ps ∩ fs) (pids ++ fids)) [c])) := by
  have hne := h.ne_nil_of_get? hp rfl
  have hs := h.nodesOk hp hne
  have hg : (node (.mappingFilter ps pids) [node (.mappingFilter fs fids) (c :: rest)]).get? [0, 0] = some c := by
    simp
  refine h.replaceAt hp hne (covers_node rfl ⟨[0], _, rfl, by simp [Elem.mappingIds]⟩ ?_)
  exact List.forall_mem_singleton.mpr (covers_of_get? (nodesOk_of_get? hs hg) hg fun _ ha => by
    simp only [ancestors_cons, List.getElem?_cons_zero, Option.some_bind, ancestors_nil, Option.map_some',
      Option.some.injEq] at ha
    subst ha
    simp [Elem.mappingIds])

section Loop

variable {I : Isl} {root0 t0 : ScheduleTree} {n : List Nat}

/-- **The merge loop keeps the tree well formed** on a subtree in chain shape. -/
theorem mergeConsecutiveMappingFiltersLoop_wellFormed (hn : root0.get? n = some t0) {root : ScheduleTree}
    (h : MergeInv root0 t0 n root) (hw : WellFormed root) :
    ∃ root', mergeConsecutiveMappingFiltersLoop I root n = .ok root' ∧ WellFormed root' := by
  suffices ∀ k root, root.size = k → MergeInv root0 t0 n root → WellFormed root →
      ∃ root', mergeConsecutiveMappingFiltersLoop I root n = .ok root' ∧ WellFormed root' from
    this _ root rfl h hw
  intro k
  induction k using Nat.strong_induction_on with
  | _ k ih =>
    intro root hs h hw
    obtain ⟨t, rfl, hcol, hshape⟩ := h.collapse
    have ht : (root0.replaceAt n t).get? n = some t := by
      simpa using get?_replaceAt_append hn t []
    rcases mergeScan_of_mergeInv (I := I) ht hshape h.nodup h.unmergeable with
      hnone | ⟨q, ps, pids, fs, fids, c, rest, hq, hsome⟩
    · exact ⟨_, mergeConsecutiveMappingFiltersLoop_of_none hnone, hw⟩
    · rw [mergeConsecutiveMappingFiltersLoop_of_some hsome]
      exact ih _ (hs ▸ size_mergeScan hsome) _ rfl (h.merge hn ⟨hcol, hshape⟩ hq)
        (hw.merge (by rw [get?_append, ht, Option.some_bind, hq]))

end Loop

/-- `mergeConsecutiveMappingFilters` on a subtree in chain shape, whose node is not a mapping filter under
a mapping filter, keeps the tree well formed. -/
theorem wellFormed_mergeConsecutiveMappingFilters {I : Isl} {root root' t0 : ScheduleTree} {n n' : List Nat}
    (h : WellFormed root) (hn : root.get? n = some t0) (hchain : chainShape t0 = true)
    (hnode : (root.elemAt n.dropLast).any Elem.isMappingFilter = false ∨
      (root.elemAt n).any Elem.isMappingFilter = false)
    (hm : mergeConsecutiveMappingFilters I root n = .ok (root', n')) : WellFormed root' := by
  have hids : ∀ p es, root.path p = some es → (es.flatMap Elem.mappingIds).Nodup := fun p es hp => by
    have := h.paths p es hp
    simp only [pathOk, Bool.and_eq_true, decide_eq_true_eq] at this
    exact this.2
  obtain ⟨r, hloop, hr⟩ := mergeConsecutiveMappingFiltersLoop_wellFormed (I := I) hn
    ⟨hchain, ⟨t0, (replaceAt_get?_self hn).symm, Collapse.refl t0, hchain⟩, hids, hnode⟩ h
  unfold mergeConsecutiveMappingFilters at hm
  split at hm
  all_goals first
    | (simp only [hloop, bind, Except.bind, pure, Except.pure, Except.ok.injEq, Prod.mk.injEq] at hm
       obtain ⟨rfl, -⟩ := hm
       exact hr)
    | cases hm

/-! ## Runs of transformations -/

/-- One transformation of the tree, as a function of the file makes it: an in-place band edit, an
insertion above or below a node, a label insertion, an ordering, a narrowing of the top-level context,
`gist` of a subtree, or the merge loop over a subtree in chain shape whose node is not a mapping filter
under a mapping filter. -/
inductive Transform (I : Isl) : ScheduleTree → ScheduleTree → Prop
  | bandTile {root root' : ScheduleTree} {t : List Nat} {tileSizes : List UInt64} {tileOptions : TileOptions} :
      root.editAt t (bandTile · tileSizes tileOptions) = .ok root' → Transform I root root'
  | bandScale {root root' : ScheduleTree} {t : List Nat} {scales : List UInt64} :
      root.editAt t (bandScale · scales) = .ok root' → Transform I root root'
  | bandSplit {root root' : ScheduleTree} {t : List Nat} {pos : Nat} :
      root.editAt t (bandSplit · pos) = .ok root' → Transform I root root'
  | bandSplitOut {root root' : ScheduleTree} {t : List Nat} {pos : Nat} :
      root.editAt t (fun s => Prod.fst <$> bandSplitOut s pos) = .ok root' → Transform I root root'
  | joinBands {root root' : ScheduleTree} {t : List Nat} {permutable : Bool} :
      root.editAt t (joinBands · permutable) = .ok root' → Transform I root root'
  | joinBandsIterative {root root' : ScheduleTree} {t : List Nat} {permutable : Bool} :
      root.editAt t (joinBandsIterative · permutable) = .ok root' → Transform I root root'
  | insertBandAbove {root root' : ScheduleTree} {tree tree' : List Nat} {mupa : Mupa} :
      insertBandAbove root tree mupa = .ok (root', tree') → Transform I root root'
  | insertBandBelow {root root' : ScheduleTree} {t : List Nat} {mupa : Mupa} :
      root.editAt t (fun s => Prod.fst <$> insertBandBelow s mupa) = .ok root' → Transform I root root'
  | insertSequenceAbove {root root' : ScheduleTree} {tree tree' : List Nat} :
      insertSequenceAbove I root tree = .ok (root', tree') → Transform I root root'
  | insertExtensionAbove {root root' : ScheduleTree} {tree tree' : List Nat} {extension : ExtMap} :
      insertExtensionAbove root tree extension = .ok (root', tree') → Transform I root root'
  | insertEmptyExtensionAbove {root root' : ScheduleTree} {st st' : List Nat} :
      insertEmptyExtensionAbove root st = .ok (root', st') → Transform I root root'
  | insertExtensionLabelBefore {root root' : ScheduleTree} {tree : List Nat} {id : Id} :
      insertExtensionLabelBefore I root tree id = .ok root' → Transform I root root'
  | insertExtensionLabelAfter {root root' : ScheduleTree} {tree : List Nat} {id : Id} :
      insertExtensionLabelAfter I root tree id = .ok root' → Transform I root root'
  | orderBefore {root root' : ScheduleTree} {tree : List Nat} {filter : USet} :
      orderBefore I root tree filter = .ok root' → Transform I root root'
  | orderAfter {root root' : ScheduleTree} {tree : List Nat} {filter : USet} :
      orderAfter I root tree filter = .ok root' → Transform I root root'
  | gist {root s : ScheduleTree} {t : List Nat} {context : USet} :
      root.get? t = some s → Transform I root (root.replaceAt t (gist I context s))
  | insertExtensionLabelAt {root root' : ScheduleTree} {seqNode : List Nat} {pos : Nat} {id : Id} :
      insertExtensionLabelAt root seqNode pos id = .ok root' → Transform I root root'
  | updateTopLevelContext {root root' : ScheduleTree} {context : ParamSet} :
      updateTopLevelContext root context = .ok root' → Transform I root root'
  | mergeConsecutiveMappingFilters {root root' t0 : ScheduleTree} {n n' : List Nat} :
      root.get? n = some t0 → chainShape t0 = true →
      ((root.elemAt n.dropLast).any Elem.isMappingFilter = false ∨ (root.elemAt n).any Elem.isMappingFilter = false) →
      mergeConsecutiveMappingFilters I root n = .ok (root', n') → Transform I root root'

/-- One transformation keeps the tree well formed. -/
theorem WellFormed.transform {I : Isl} {root root' : ScheduleTree} (h : WellFormed root)
    (step : Transform I root root') : WellFormed root' := by
  cases step with
  | bandTile he => exact h.editAt (editOk_bandTile _ _) he
  | bandScale he => exact h.editAt (editOk_bandScale _) he
  | bandSplit he => exact h.editAt (editOk_bandSplit _) he
  | bandSplitOut he => exact h.editAt (editOk_bandSplitOut _) he
  | joinBands he => exact h.editAt (editOk_joinBands _) he
  | joinBandsIterative he => exact h.editAt (editOk_joinBandsIterative _) he
  | insertBandAbove hi => exact wellFormed_insertBandAbove h hi
  | insertBandBelow hi => exact wellFormed_insertBandBelow h hi
  | insertSequenceAbove hi => exact wellFormed_insertSequenceAbove h hi
  | insertExtensionAbove hi => exact wellFormed_insertExtensionAbove h hi
  | insertEmptyExtensionAbove hi => exact wellFormed_insertEmptyExtensionAbove h hi
  | insertExtensionLabelBefore hi => exact wellFormed_insertExtensionLabelNear h hi
  | insertExtensionLabelAfter hi => exact wellFormed_insertExtensionLabelNear h hi
  | insertExtensionLabelAt hi => exact wellFormed_insertExtensionLabelAt h hi
  | updateTopLevelContext hu => exact wellFormed_updateTopLevelContext h hu
  | orderBefore ho => exact wellFormed_orderBefore h ho
  | orderAfter ho => exact wellFormed_orderAfter h ho
  | gist ht => exact wellFormed_gist h ht
  | mergeConsecutiveMappingFilters hn hchain hnode hm => exact wellFormed_mergeConsecutiveMappingFilters h hn hchain hnode hm

/-- `{S[0]}` over the band `S[i] ↦ i`, over a leaf. -/
def lineRoot : ScheduleTree := node (.domain {⟨"S", [0]⟩}) [node (.band lineBand) []]

end Polyhedral
