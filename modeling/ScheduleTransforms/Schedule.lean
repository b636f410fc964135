import ScheduleTransforms.Tree
/-!
# Schedule — the prefix schedule and the active domain points of a node

`prefixSchedule` and `partialSchedule` fold `extendSchedule` over a node's ancestors (and the node
itself); `activeDomainPoints` walks the same ancestors, intersecting with filters and adding what an
extension introduces at the coordinates of the prefix schedule there.  Both are halves of one walk
(`Walk`): under a Domain root the schedule half is the prefix schedule (`prefixSchedule_eq_walk`) and
the active half is `activeDomainPoints`, whose check then never fires (`activeDomainPoints_eq_walk`),
not even on an extension with no band above it (`activeDomainPoints_accepts_misplaced_extension`).
A transformation replaces a stretch of a node's ancestors; what the walk does on that stretch decides
what every view below sees (`walk_append`, `walk_active_congr`).
-/
namespace Polyhedral

open ScheduleTree

/-- `extendSchedule`: what one ancestor does to a prefix schedule; a null schedule stays null. -/
def extendSchedule (e : Elem) (schedule : Option UMap) : Option UMap :=
  match e with
  | .band b =>
    if 0 < b.nMember then schedule.map (·.flatRangeProduct (UMap.fromMupa b.mupa)) else schedule
  | .filter s | .mappingFilter s _ => schedule.map (·.intersectDomain s)
  | .extension ext => schedule.map fun s => s ∪ ext.reverse.intersectRange s.range
  | _ => schedule

/-- One iteration of `partialScheduleImpl`'s loop: a Domain node starts the schedule afresh. -/
def partialScheduleStep (schedule : Option UMap) : Elem → Option UMap
  | .domain d => some (UMap.fromDomain d)
  | e => extendSchedule e schedule

/-- `partialScheduleImpl`, on the elements of the nodes it walks, root first. -/
def partialScheduleImpl (nodes : List Elem) : Option UMap := nodes.foldl partialScheduleStep none

/-- `prefixSchedule(root, node)`: the schedule of the node's ancestors. -/
def prefixSchedule (root : ScheduleTree) (node : List Nat) : Option UMap :=
  (root.ancestors node).bind partialScheduleImpl

/-- `partialSchedule(root, node)`: the schedule of the node's ancestors and the node. -/
def partialSchedule (root : ScheduleTree) (node : List Nat) : Option UMap :=
  (root.ancestors node).bind fun nodes => (root.elemAt node).bind fun e => partialScheduleImpl (nodes ++ [e])

/-- The loop of `activeDomainPoints` over the ancestors still to visit; `done` are those visited, so
that `partialScheduleImpl done` is `prefixSchedule(root, anc)`. -/
def activeDomainPointsLoop (I : Isl) : List Elem → List Elem → USet → Except String USet
  | _, [], domain => .ok domain
  | done, anc :: rest, domain =>
    match anc with
    | .filter s | .mappingFilter s _ => activeDomainPointsLoop I (done ++ [anc]) rest (domain ∩ s)
    | .extension extension =>
      match partialScheduleImpl done with
      | some parentSchedule =>
        activeDomainPointsLoop I (done ++ [anc]) rest
          (domain ∪ USet.apply (parentSchedule.intersectDomain domain).range extension)
      | none =>
        if I.inDim extension = 0 then
          activeDomainPointsLoop I (done ++ [anc]) rest (domain ∪ extension.range)
        else .error "expected a zero-dimensional domain of the Extension node in absence of parent band nodes"
    | _ => activeDomainPointsLoop I (done ++ [anc]) rest domain

/-- `activeDomainPoints(root, node)`: the instances that reach the node. -/
def activeDomainPoints (I : Isl) (root : ScheduleTree) (node : List Nat) : Except String USet :=
  match root.elem with
  | .domain domain =>
    if node = [] then .ok domain
    else match root.ancestors node with
      | some ancs => activeDomainPointsLoop I [] ancs domain
      | none => .error noSuchNode
  | _ => .error "root must be a Domain node"

/-! ## One walk for both views -/

/-- What walking down from the root has computed: the prefix schedule and the active points. -/
structure Walk where
  schedule : Option UMap
  active : USet

/-- What one ancestor does to both views. -/
def Walk.step (w : Walk) (e : Elem) : Walk where
  schedule := partialScheduleStep w.schedule e
  active :=
    match e with
    | .filter s | .mappingFilter s _ => w.active ∩ s
    | .extension ext =>
      match w.schedule with
      | some ps => w.active ∪ USet.apply (ps.intersectDomain w.active).range ext
      | none => w.active ∪ ext.range
    | _ => w.active

/-- The walk over a list of ancestors. -/
def walk (w : Walk) (es : List Elem) : Walk := es.foldl Walk.step w

@[simp] theorem walk_nil (w : Walk) : walk w [] = w := rfl

@[simp] theorem walk_cons (w : Walk) (e : Elem) (es : List Elem) : walk w (e :: es) = walk (w.step e) es :=
  rfl

theorem walk_append (w : Walk) (es es' : List Elem) : walk w (es ++ es') = walk (walk w es) es' :=
  List.foldl_append _ _ _ _

theorem walk_schedule (w : Walk) (es : List Elem) :
    (walk w es).schedule = es.foldl partialScheduleStep w.schedule := by
  induction es generalizing w with
  | nil => rfl
  | cons e es ih => exact ih _

theorem isSome_partialScheduleStep {s : Option UMap} (h : s.isSome) (e : Elem) :
    (partialScheduleStep s e).isSome := by
  cases e <;> simp only [partialScheduleStep, extendSchedule] <;> try split
  all_goals simp [h]

/-- With a schedule to start from, the loop of `activeDomainPoints` is the active half of the walk. -/
theorem activeDomainPointsLoop_eq (I : Isl) :
    ∀ (es done : List Elem) (w : Walk), w.schedule = partialScheduleImpl done → w.schedule.isSome →
      activeDomainPointsLoop I done es w.active = .ok (walk w es).active
  | [], _, _, _, _ => rfl
  | e :: es, done, w, hw, hs => by
    have hnext : (w.step e).schedule = partialScheduleImpl (done ++ [e]) := by
      simp only [partialScheduleImpl, List.foldl_append, List.foldl_cons, List.foldl_nil] at hw ⊢
      rw [← hw]; rfl
    have ih := activeDomainPointsLoop_eq I es (done ++ [e]) (w.step e) hnext
      (isSome_partialScheduleStep hs e)
    obtain ⟨ps, hps⟩ := Option.isSome_iff_exists.mp hs
    cases e <;> simp only [activeDomainPointsLoop, walk_cons, ← hw, hps] <;>
      simpa only [Walk.step, hps] using ih

/-- **Under a Domain root, `activeDomainPoints` is the walk's active half**, for every node. -/
theorem activeDomainPoints_eq_walk (I : Isl) {D : USet} {cs : List ScheduleTree} {n : List Nat}
    {ancs : List Elem} (h : (node (.domain D) cs).ancestors n = some ancs) :
    activeDomainPoints I (node (.domain D) cs) n = .ok (walk ⟨none, D⟩ ancs).active := by
  obtain _ | ⟨i, p⟩ := n
  · simp only [ancestors_nil, Option.some.injEq] at h
    subst h; rfl
  · simp only [ancestors_cons] at h
    obtain ⟨c, -, hc⟩ := Option.bind_eq_some.mp h
    obtain ⟨es, -, rfl⟩ := Option.map_eq_some'.mp hc
    simp only [activeDomainPoints, elem_node, ancestors_cons, h, reduceCtorEq, if_false,
      activeDomainPointsLoop]
    exact activeDomainPointsLoop_eq I es _ ⟨some (UMap.fromDomain D), D⟩ rfl rfl

theorem prefixSchedule_eq_walk {root : ScheduleTree} {n : List Nat} {ancs : List Elem}
    (h : root.ancestors n = some ancs) (D : USet) :
    prefixSchedule root n = (walk ⟨none, D⟩ ancs).schedule := by
  rw [prefixSchedule, h, Option.some_bind, walk_schedule]; rfl

/-- Without extensions, the active points at the end of a walk depend on those at its start only. -/
theorem walk_active_congr {es : List Elem} (hes : ∀ e ∈ es, ∀ ext, e ≠ .extension ext) {w w' : Walk}
    (h : w.active = w'.active) : (walk w es).active = (walk w' es).active := by
  induction es generalizing w w' with
  | nil => exact h
  | cons e es ih =>
    refine ih (fun e' he' => hes e' (List.mem_cons_of_mem _ he')) ?_
    cases e <;> simp only [Walk.step, h]
    exact absurd rfl (hes _ (List.mem_cons_self _ _) _)

/-- `x` is in the set of every filter among `es`. -/
def Passes (x : Inst) (es : List Elem) : Prop := ∀ e ∈ es, ∀ s, e.filterSet? = some s → x ∈ s

@[simp] theorem passes_nil (x : Inst) : Passes x [] := by simp [Passes]

@[simp] theorem passes_cons (x : Inst) (e : Elem) (es : List Elem) :
    Passes x (e :: es) ↔ (∀ s, e.filterSet? = some s → x ∈ s) ∧ Passes x es := by
  simp [Passes]

@[simp] theorem passes_append (x : Inst) (es es' : List Elem) : Passes x (es ++ es') ↔ Passes x es ∧ Passes x es' := by
  simp only [Passes, List.mem_append, or_imp, forall_and]

/-- Without extensions, an instance is active after a walk iff it was before and passes its filters. -/
theorem mem_walk_active_iff {es : List Elem} (hes : ∀ e ∈ es, ∀ ext, e ≠ .extension ext) (w : Walk) (x : Inst) :
    x ∈ (walk w es).active ↔ x ∈ w.active ∧ Passes x es := by
  induction es generalizing w with
  | nil => simp
  | cons e es ih =>
    rw [walk_cons, ih (fun e' he' => hes e' (List.mem_cons_of_mem _ he')), passes_cons, ← and_assoc]
    refine and_congr_left' ?_
    cases e with
    | extension ext => exact absurd rfl (hes _ (List.mem_cons_self _ _) ext)
    | filter s | mappingFilter s _ => simp [Walk.step, Elem.filterSet?]
    | _ => simp [Walk.step, Elem.filterSet?]

/-! ## What a node's views depend on

Both views of a node are read off what the walk down to it does, as a function of where it starts
(`walkOf`): a transformation that keeps that function keeps the views. -/

/-- The walk over a list of ancestors, as a function of its start. -/
def walkOf (es : List Elem) (w : Walk) : Walk := walk w es

theorem walkOf_append (es es' : List Elem) : walkOf (es ++ es') = walkOf es' ∘ walkOf es :=
  funext fun w => walk_append w es es'

theorem Walk.step_band_of_nMember_eq_zero (w : Walk) {b : Band} (hb : b.nMember = 0) : w.step (.band b) = w := by
  simp [Walk.step, partialScheduleStep, extendSchedule, hb]

/-- Two nested bands walk as one band with the members of both. -/
theorem Walk.step_band_band (w : Walk) {b c d : Band} (hd : d.mupa = b.mupa ++ c.mupa) :
    (w.step (.band b)).step (.band c) = w.step (.band d) := by
  have hn : d.nMember = b.nMember + c.nMember := by simp [Band.nMember, hd]
  rcases Nat.eq_zero_or_pos b.nMember with hb | hb
  · have hdc : d.mupa = c.mupa := by rw [hd, List.length_eq_zero.mp hb, List.nil_append]
    rw [w.step_band_of_nMember_eq_zero hb]
    simp only [Walk.step, partialScheduleStep, extendSchedule, Band.nMember, hdc]
  rcases Nat.eq_zero_or_pos c.nMember with hc | hc
  · have hdb : d.mupa = b.mupa := by rw [hd, List.length_eq_zero.mp hc, List.append_nil]
    rw [Walk.step_band_of_nMember_eq_zero _ hc]
    simp only [Walk.step, partialScheduleStep, extendSchedule, Band.nMember, hdb]
  · simp only [Walk.step, partialScheduleStep, extendSchedule, hn, hb, hc, Nat.add_pos_left, if_true,
      Option.map_map, Function.comp_def, UMap.flatRangeProduct_fromMupa, hd]

/-- A chain of bands walks as one band with all their members, read top-down. -/
theorem walkOf_bands (bs : List Band) (B : Band) (hB : B.mupa = (bs.map Band.mupa).flatten) :
    walkOf (bs.map .band) = walkOf [.band B] := by
  induction bs generalizing B with
  | nil => exact funext fun w => (w.step_band_of_nMember_eq_zero (by simp [Band.nMember, hB])).symm
  | cons b bs ih =>
    funext w
    have h := congrFun (ih { B with mupa := (bs.map Band.mupa).flatten } rfl) (w.step (.band b))
    simp only [walkOf, walk_cons, walk_nil, List.map_cons] at h ⊢
    rw [h, Walk.step_band_band w (by simpa using hB)]

/-- The active points at the end of a walk over a list of ancestors, as a function of its start. -/
def activeOf (es : List Elem) (w : Walk) : USet := (walk w es).active

theorem activeOf_append (es es' : List Elem) : activeOf (es ++ es') = activeOf es' ∘ walkOf es :=
  funext fun w => congrArg Walk.active (walk_append w es es')

theorem activeOf_eq_of_walkOf_eq {es es' : List Elem} (h : walkOf es = walkOf es') : activeOf es = activeOf es' :=
  funext fun w => congrArg Walk.active (congrFun h w)

/-- Bands leave the active points alone, so before a stretch without extensions they change nothing
the stretch is observed to do to them. -/
theorem activeOf_bands_append (bs : List Band) {es : List Elem} (hes : ∀ e ∈ es, ∀ ext, e ≠ .extension ext) :
    activeOf (bs.map .band ++ es) = activeOf es := by
  have hbands : ∀ w, (walk w (bs.map .band)).active = w.active := by
    intro w
    induction bs generalizing w with
    | nil => rfl
    | cons b bs ih => exact ih (w.step (.band b))
  exact funext fun w => by rw [activeOf_append]; exact walk_active_congr hes (hbands w)

theorem activeDomainPoints_of_ancestors_none (I : Isl) {D : USet} {cs : List ScheduleTree} {n : List Nat}
    (h : (node (.domain D) cs).ancestors n = none) : activeDomainPoints I (node (.domain D) cs) n = .error noSuchNode := by
  obtain _ | ⟨i, p⟩ := n
  · simp at h
  · simp only [activeDomainPoints, elem_node, h, reduceCtorEq, if_false]

theorem exists_ancestors_of_activeDomainPoints (I : Isl) {D B : USet} {cs : List ScheduleTree} {n : List Nat}
    (h : activeDomainPoints I (node (.domain D) cs) n = .ok B) :
    ∃ ancs, (node (.domain D) cs).ancestors n = some ancs ∧ B = (walk ⟨none, D⟩ ancs).active := by
  cases hn : (node (.domain D) cs).ancestors n with
  | none => rw [activeDomainPoints_of_ancestors_none I hn] at h; cases h
  | some ancs => rw [activeDomainPoints_eq_walk I hn] at h; exact ⟨ancs, rfl, (Except.ok.inj h).symm⟩

/-- Under a Domain root, `activeDomainPoints` returns normally at every node. -/
theorem activeDomainPoints_ok (I : Isl) {D : USet} {cs : List ScheduleTree} {n : List Nat}
    (hn : ((node (.domain D) cs).get? n).isSome) : ∃ A, activeDomainPoints I (node (.domain D) cs) n = .ok A := by
  obtain ⟨ancs, h⟩ := Option.isSome_iff_exists.mp ((ancestors_isSome _ n).trans hn)
  exact ⟨_, activeDomainPoints_eq_walk I h⟩

/-- `S[0]` over an extension adding `L[]` at the one-dimensional tuple `(0)`, with no band above it,
over a leaf. -/
def misplacedExtensionRoot : ScheduleTree :=
  node (.domain {⟨"S", [0]⟩}) [node (.extension {([0], Inst.label "L")}) [node .sequence []]]

/-- **The check on extensions without a band above never fires**: the extension of
`misplacedExtensionRoot` maps one-dimensional tuples and has no band above it, yet whatever isl
answers for its input dimension, `activeDomainPoints` at the leaf returns normally, without `L[]`: the
prefix schedule at the extension starts from the root's domain, so it is not null, and relates `S[0]`
to the empty tuple only. -/
theorem activeDomainPoints_accepts_misplaced_extension (I : Isl) :
    (∀ p ∈ ({([0], Inst.label "L")} : ExtMap), p.1.length = 1) ∧
      ∃ A, activeDomainPoints I misplacedExtensionRoot [0, 0] = .ok A ∧ Inst.label "L" ∉ A := by
  refine ⟨by simp, _, rfl, ?_⟩
  simp [Inst.label, UMap.fromDomain]

/-- **The active points at a node depend only on the root's element and on what the walk to the node
does to them.** -/
theorem activeDomainPoints_congr (I : Isl) {root root' : ScheduleTree} {n n' : List Nat} (hr : root'.elem = root.elem)
    (h : (root'.ancestors n').map activeOf = (root.ancestors n).map activeOf) :
    activeDomainPoints I root' n' = activeDomainPoints I root n := by
  obtain ⟨e', cs'⟩ := root'
  obtain ⟨e, cs⟩ := root
  obtain rfl : e = e' := hr.symm
  cases e
  case domain D =>
    cases h' : (node (.domain D) cs').ancestors n' with
    | none =>
      rw [h', Option.map_none', eq_comm, Option.map_eq_none'] at h
      rw [activeDomainPoints_of_ancestors_none I h', activeDomainPoints_of_ancestors_none I h]
    | some es' =>
      rw [h', Option.map_some', eq_comm, Option.map_eq_some'] at h
      obtain ⟨es, hes, hw⟩ := h
      rw [activeDomainPoints_eq_walk I h', activeDomainPoints_eq_walk I hes]
      exact congrArg (fun f => Except.ok (f ⟨none, D⟩)) hw.symm
  all_goals rfl

theorem partialSchedule_eq_path (root : ScheduleTree) (n : List Nat) :
    partialSchedule root n = (root.path n).bind partialScheduleImpl := by
  simp only [partialSchedule, path]
  cases root.ancestors n <;> cases root.elemAt n <;> rfl

theorem partialScheduleImpl_eq_walkOf (es : List Elem) : partialScheduleImpl es = (walkOf es ⟨none, ∅⟩).schedule :=
  (walk_schedule ⟨none, ∅⟩ es).symm

/-- The schedule half of a walk does not read the active half. -/
theorem partialScheduleImpl_eq_walk (D : USet) (es : List Elem) : partialScheduleImpl es = (walk ⟨none, D⟩ es).schedule :=
  (walk_schedule ⟨none, D⟩ es).symm

/-- **The partial schedule at a node depends only on what the walk to it, the node included, does.** -/
theorem partialSchedule_congr {root root' : ScheduleTree} {n n' : List Nat}
    (h : (root'.path n').map walkOf = (root.path n).map walkOf) :
    partialSchedule root' n' = partialSchedule root n := by
  rw [partialSchedule_eq_path, partialSchedule_eq_path]
  cases h' : root'.path n' with
  | none => rw [h', Option.map_none', eq_comm, Option.map_eq_none'] at h; rw [h]
  | some es' =>
    rw [h', Option.map_some', eq_comm, Option.map_eq_some'] at h
    obtain ⟨es, hes, hw⟩ := h
    simp only [hes, Option.some_bind, partialScheduleImpl_eq_walkOf, hw]

/-- **The prefix schedule at a node depends only on what the walk to it does.** -/
theorem prefixSchedule_congr {root root' : ScheduleTree} {n n' : List Nat}
    (h : (root'.ancestors n').map walkOf = (root.ancestors n).map walkOf) :
    prefixSchedule root' n' = prefixSchedule root n := by
  rw [prefixSchedule, prefixSchedule]
  cases h' : root'.ancestors n' with
  | none => rw [h', Option.map_none', eq_comm, Option.map_eq_none'] at h; rw [h]
  | some es' =>
    rw [h', Option.map_some', eq_comm, Option.map_eq_some'] at h
    obtain ⟨es, hes, hw⟩ := h
    simp only [hes, Option.some_bind, partialScheduleImpl_eq_walkOf, hw]

section Observe

/-! What a stretch of ancestors is observed to do, `F`, reads the walk only through its start:
`walkOf` for both views, `activeOf` for the active points. -/

variable {β : Type} {F : List Elem → Walk → β} (hF : ∀ es es', F (es ++ es') = F es' ∘ walkOf es)
include hF

/-- Two stretches that walk alike are observed alike after the same prefix. -/
theorem map_append_congr {a a' : List Elem} (h : walkOf a = walkOf a') (X : Option (List Elem)) :
    (X.map (a ++ ·)).map F = (X.map (a' ++ ·)).map F := by
  cases X <;> simp [hF, h]

/-- Prepending the same stretch keeps two observations equal. -/
theorem map_bind_append_congr {A X Y : Option (List Elem)} (h : X.map F = Y.map F) :
    (A.bind fun es => X.map (es ++ ·)).map F = (A.bind fun es => Y.map (es ++ ·)).map F := by
  cases A with
  | none => rfl
  | some es =>
    have h' := congrArg (Option.map (· ∘ walkOf es)) h
    simp only [Option.map_map] at h'
    simpa only [Option.some_bind, Option.map_map, Function.comp_def, hF] using h'

/-- A subtree edit that keeps what is observed inside the subtree keeps it from the root … -/
theorem ancestors_replaceAt_congr {root old new : ScheduleTree} {t q q' : List Nat} (h : root.get? t = some old)
    (hq : (new.ancestors q').map F = (old.ancestors q).map F) :
    ((root.replaceAt t new).ancestors (t ++ q')).map F = (root.ancestors (t ++ q)).map F := by
  rw [ancestors_replaceAt_append h, ancestors_append h]
  exact map_bind_append_congr hF hq

/-- … the node included. -/
theorem path_replaceAt_congr {root old new : ScheduleTree} {t q q' : List Nat} (h : root.get? t = some old)
    (hq : (new.path q').map F = (old.path q).map F) :
    ((root.replaceAt t new).path (t ++ q')).map F = (root.path (t ++ q)).map F := by
  rw [path_replaceAt_append h, path_append h]
  exact map_bind_append_congr hF hq

end Observe

/-! ## The two views agree -/

/-- The walk's schedule is defined, on active points only. -/
def Walk.Inside (w : Walk) : Prop := ∃ S, w.schedule = some S ∧ S.domain ⊆ w.active

/-- The walk's schedule is defined on exactly the active points. -/
def Walk.Exact (w : Walk) : Prop := ∃ S, w.schedule = some S ∧ S.domain = w.active

theorem Walk.Exact.inside {w : Walk} (h : w.Exact) : w.Inside :=
  let ⟨S, hS, heq⟩ := h
  ⟨S, hS, heq.le⟩

theorem Walk.Inside.step {w : Walk} (hw : w.Inside) {e : Elem} (he : ∀ d, e ≠ .domain d) :
    (w.step e).Inside := by
  obtain ⟨S, hS, hsub⟩ := hw
  cases e with
  | domain d => exact absurd rfl (he d)
  | band b =>
    by_cases hb : 0 < b.nMember
    · refine ⟨S.flatRangeProduct (UMap.fromMupa b.mupa),
        by simp [Walk.step, partialScheduleStep, extendSchedule, hS, hb], ?_⟩
      rintro x ⟨_, c, d, hc, -, rfl⟩
      exact hsub ⟨c, hc⟩
    · exact ⟨S, by simp [Walk.step, partialScheduleStep, extendSchedule, hS, hb], hsub⟩
  | filter s | mappingFilter s _ =>
    refine ⟨S.intersectDomain s, by simp [Walk.step, partialScheduleStep, extendSchedule, hS], ?_⟩
    rintro x ⟨c, hc, hxs⟩
    exact ⟨hsub ⟨c, hc⟩, hxs⟩
  | extension ext =>
    refine ⟨S ∪ ext.reverse.intersectRange S.range,
      by simp [Walk.step, partialScheduleStep, extendSchedule, hS], ?_⟩
    simp only [Walk.step, hS]
    rintro x ⟨c, hc | ⟨hext, z, hz⟩⟩
    · exact Or.inl (hsub ⟨c, hc⟩)
    · exact Or.inr ⟨c, ⟨z, hz, hsub ⟨c, hz⟩⟩, hext⟩
  | context _ | sequence | set => exact ⟨S, by simp [Walk.step, partialScheduleStep, extendSchedule, hS], hsub⟩

theorem Walk.Exact.step {w : Walk} (hw : w.Exact) {e : Elem} (he : ∀ d, e ≠ .domain d)
    (hb : ∀ b, e = .band b → 0 < b.nMember → ∀ x ∈ w.active, (b.mupa.eval x).isSome) :
    (w.step e).Exact := by
  obtain ⟨S, hS, heq⟩ := hw
  obtain ⟨S', hS', hsub⟩ := Walk.Inside.step ⟨S, hS, heq.le⟩ he
  refine ⟨S', hS', le_antisymm hsub ?_⟩
  cases e with
  | domain d => exact absurd rfl (he d)
  | band b =>
    intro x hx
    obtain ⟨c, hc⟩ := heq.ge hx
    by_cases hbm : 0 < b.nMember
    · obtain ⟨d, hd⟩ := Option.isSome_iff_exists.mp (hb b rfl hbm x hx)
      simp only [Walk.step, partialScheduleStep, extendSchedule, hS, hbm, if_true, Option.map_some',
        Option.some.injEq] at hS'
      exact ⟨c ++ d, by rw [← hS']; exact ⟨c, d, hc, hd, rfl⟩⟩
    · simp only [Walk.step, partialScheduleStep, extendSchedule, hS, hbm, if_false,
        Option.some.injEq] at hS'
      exact ⟨c, hS' ▸ hc⟩
  | filter s | mappingFilter s _ =>
    rintro x ⟨hx, hxs⟩
    obtain ⟨c, hc⟩ := heq.ge hx
    simp only [Walk.step, partialScheduleStep, extendSchedule, hS, Option.map_some',
      Option.some.injEq] at hS'
    exact ⟨c, by rw [← hS']; exact ⟨hc, hxs⟩⟩
  | extension ext =>
    simp only [Walk.step, partialScheduleStep, extendSchedule, hS, Option.map_some',
      Option.some.injEq] at hS' ⊢
    rintro x (hx | ⟨c, ⟨z, hz, -⟩, hext⟩)
    · obtain ⟨c, hc⟩ := heq.ge hx
      exact ⟨c, by rw [← hS']; exact Or.inl hc⟩
    · exact ⟨c, by rw [← hS']; exact Or.inr ⟨hext, z, hz⟩⟩
  | context _ | sequence | set =>
    simp only [Walk.step, partialScheduleStep, extendSchedule, hS, Option.some.injEq] at hS' ⊢
    exact hS' ▸ heq.ge

theorem walk_inside {es : List Elem} (hes : ∀ e ∈ es, ∀ d, e ≠ .domain d) {w : Walk} (hw : w.Inside) :
    (walk w es).Inside := by
  induction es generalizing w with
  | nil => exact hw
  | cons e es ih =>
    exact ih (fun e' he' => hes e' (List.mem_cons_of_mem _ he'))
      (hw.step (hes e (List.mem_cons_self _ _)))

theorem walk_exact {es : List Elem} (hes : ∀ e ∈ es, ∀ d, e ≠ .domain d) {w : Walk} (hw : w.Exact)
    (hb : ∀ k b, es[k]? = some (.band b) → 0 < b.nMember →
      ∀ x ∈ (walk w (es.take k)).active, (b.mupa.eval x).isSome) :
    (walk w es).Exact := by
  induction es generalizing w with
  | nil => exact hw
  | cons e es ih =>
    refine ih (fun e' he' => hes e' (List.mem_cons_of_mem _ he'))
      (hw.step (hes e (List.mem_cons_self _ _)) fun b hb' => hb 0 b (by simp [hb'])) ?_
    intro k b hk
    exact hb (k + 1) b (by simpa using hk)

/-- Under a root that is the only Domain node, the walk down to a node below it schedules active
points only. -/
theorem walk_ancestors_inside {D : USet} {cs : List ScheduleTree}
    (hdom : ∀ p d, p ≠ [] → (node (.domain D) cs).elemAt p ≠ some (.domain d)) {n : List Nat} (hn : n ≠ [])
    {ancs : List Elem} (h : (node (.domain D) cs).ancestors n = some ancs) : (walk ⟨none, D⟩ ancs).Inside := by
  obtain ⟨rest, rfl, hrest⟩ := ancestors_eq_domain_cons hdom hn h
  exact walk_inside hrest ⟨UMap.fromDomain D, rfl, fun x ⟨_, hx⟩ => hx.1⟩

/-- A filter on a set holding every active point changes nothing, the schedule being on active points
only. -/
theorem Walk.step_filter_of_subset {w : Walk} (hw : w.Inside) {U : USet} (hU : w.active ⊆ U) :
    w.step (.filter U) = w := by
  obtain ⟨S, hS, hsub⟩ := hw
  obtain ⟨schedule, active⟩ := w
  dsimp only at hS hU hsub
  subst hS
  have hSU : S.intersectDomain U = S := Set.ext fun p =>
    ⟨And.left, fun hp => ⟨hp, hU (hsub ⟨p.2, hp⟩)⟩⟩
  simp only [Walk.step, partialScheduleStep, extendSchedule, Option.map_some', hSU, Set.inter_eq_left.mpr hU]

/-- An extension with the empty relation changes nothing. -/
theorem Walk.step_extension_empty (w : Walk) : w.step (.extension ∅) = w := by
  obtain ⟨_ | S, active⟩ := w
  · simp [Walk.step, partialScheduleStep, extendSchedule, ExtMap.range]
  · have hS : S ∪ (ExtMap.reverse ∅).intersectRange S.range = S := by
      ext p; simp [ExtMap.reverse, UMap.intersectRange]
    simp [Walk.step, partialScheduleStep, extendSchedule, hS, USet.apply]

/-- **The domain of a node's prefix schedule lies inside its active domain points**, and is all of
them when every band above the node with members is defined on the points active at it; the root is
the only Domain node above the node. -/
theorem prefixSchedule_domain_subset_active (I : Isl) (D : USet) (cs : List ScheduleTree) (n : List Nat)
    (hn : n ≠ []) (hvalid : ((node (.domain D) cs).get? n).isSome)
    (hdom : ∀ k, 0 < k → k < n.length → ∀ d, (node (.domain D) cs).elemAt (n.take k) ≠ some (.domain d)) :
    ∃ S A, prefixSchedule (node (.domain D) cs) n = some S ∧
      activeDomainPoints I (node (.domain D) cs) n = .ok A ∧ S.domain ⊆ A ∧
      ((∀ k < n.length, ∀ b, (node (.domain D) cs).elemAt (n.take k) = some (.band b) → 0 < b.nMember →
          ∀ A', activeDomainPoints I (node (.domain D) cs) (n.take k) = .ok A' →
            ∀ x ∈ A', (b.mupa.eval x).isSome) →
        S.domain = A) := by
  obtain ⟨ancs, hancs⟩ := Option.isSome_iff_exists.mp ((ancestors_isSome _ n).trans hvalid)
  obtain ⟨i, p, rfl⟩ := List.exists_cons_of_ne_nil hn
  obtain ⟨c, -, hc⟩ := Option.bind_eq_some.mp hancs
  obtain ⟨rest, -, rfl⟩ := Option.map_eq_some'.mp hc
  have hlen : rest.length = p.length := by simpa using length_of_ancestors hancs
  have hrest : ∀ e ∈ rest, ∀ d, e ≠ .domain d := by
    intro e he d hed
    obtain ⟨k, hk, rfl⟩ := List.getElem_of_mem he
    have hk' : k + 1 < (i :: p).length := by simp; omega
    refine hdom (k + 1) (Nat.succ_pos k) hk' d ?_
    rw [elemAt_take hancs hk']
    simp [List.getElem?_eq_getElem hk, hed]
  have hw₁ : (⟨some (UMap.fromDomain D), D⟩ : Walk).Exact := ⟨_, rfl, by ext x; simp⟩
  obtain ⟨S, hS, hsub⟩ := walk_inside hrest hw₁.inside
  refine ⟨S, _, by rw [prefixSchedule_eq_walk hancs D]; exact hS, activeDomainPoints_eq_walk I hancs,
    hsub, fun hb => ?_⟩
  obtain ⟨S', hS', heq⟩ := walk_exact hrest hw₁ fun k b hk hbm x hx => by
    have hk' : k + 1 < (i :: p).length := by
      have := (List.getElem?_eq_some_iff.mp hk).1; simp; omega
    refine hb (k + 1) hk' b ?_ hbm _ ?_ x hx
    · rw [elemAt_take hancs hk']; simpa using hk
    · rw [activeDomainPoints_eq_walk I (ancestors_take hancs (k + 1))]; rfl
  obtain rfl := Option.some.inj (hS.symm.trans hS')
  exact heq

/-- `{S[0], S[1]}` under a filter on `S[0]`, a band `S[i] ↦ i` defined everywhere, and an extension
adding `L[]` at the coordinate `0`, over a leaf. -/
def nestedRoot : ScheduleTree :=
  node (.domain {⟨"S", [0]⟩, ⟨"S", [1]⟩}) [node (.filter {⟨"S", [0]⟩})
    [node (.band ⟨[fun x => some (x.iter.headD 0)], false, [false], [false]⟩)
      [node (.extension {([0], Inst.label "L")}) [node .sequence []]]]]

theorem prefixSchedule_domain_subset_active_nestedRoot :
    ([0, 0, 0, 0] ≠ [] ∧ (nestedRoot.get? [0, 0, 0, 0]).isSome ∧
      ∀ k, 0 < k → k < [0, 0, 0, 0].length → ∀ d, nestedRoot.elemAt ([0, 0, 0, 0].take k) ≠ some (.domain d)) ∧
    (∀ k < [0, 0, 0, 0].length, ∀ b, nestedRoot.elemAt ([0, 0, 0, 0].take k) = some (.band b) → 0 < b.nMember →
      ∀ A', activeDomainPoints Isl.plain nestedRoot ([0, 0, 0, 0].take k) = .ok A' → ∀ x ∈ A', (b.mupa.eval x).isSome) ∧
    ∃ S A, prefixSchedule nestedRoot [0, 0, 0, 0] = some S ∧
      activeDomainPoints Isl.plain nestedRoot [0, 0, 0, 0] = .ok A ∧ S.domain ⊆ A ∧
      ((∀ k < [0, 0, 0, 0].length, ∀ b, nestedRoot.elemAt ([0, 0, 0, 0].take k) = some (.band b) → 0 < b.nMember →
          ∀ A', activeDomainPoints Isl.plain nestedRoot ([0, 0, 0, 0].take k) = .ok A' →
            ∀ x ∈ A', (b.mupa.eval x).isSome) →
        S.domain = A) :=
  have hdom : ∀ k, 0 < k → k < [0, 0, 0, 0].length → ∀ d,
      nestedRoot.elemAt ([0, 0, 0, 0].take k) ≠ some (.domain d) := by
    intro k hk hk' d
    rcases k with _ | _ | _ | _ | k <;> simp [nestedRoot, elemAt] at hk hk' ⊢
  have hband : ∀ k < [0, 0, 0, 0].length, ∀ b, nestedRoot.elemAt ([0, 0, 0, 0].take k) = some (.band b) →
      0 < b.nMember → ∀ A', activeDomainPoints Isl.plain nestedRoot ([0, 0, 0, 0].take k) = .ok A' →
        ∀ x ∈ A', (b.mupa.eval x).isSome := by
    intro k hk b hb _ A' _ x _
    rcases k with _ | _ | _ | _ | k <;> simp [nestedRoot, elemAt] at hk hb
    subst hb
    rfl
  ⟨⟨List.cons_ne_nil _ _, rfl, hdom⟩, hband,
    prefixSchedule_domain_subset_active Isl.plain _ _ [0, 0, 0, 0] (List.cons_ne_nil _ _) rfl hdom⟩
end Polyhedral
