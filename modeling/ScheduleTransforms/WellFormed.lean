import ScheduleTransforms.Tree
/-!
# WellFormed — the invariant the data model keeps

A tree is well formed when its root is its only Domain node, every band's flag vectors have one
entry per member, and no mapping id is bound by two mapping filters on one path from the root
(`WellFormed`).  Each condition is about the elements on the path from the root to some node
(`pathOk`), so one walk over the tree computes it (`allPathsOk`); the walk is sound
(`wellFormed_of_allPathsOk`).
-/
namespace Polyhedral

open ScheduleTree

/-- The ids a node binds: those of a mapping filter. -/
def Elem.mappingIds : Elem → List MappingId
  | .mappingFilter _ ids => ids
  | _ => []

/-- A band's flag vectors have one entry per member. -/
def Elem.flagsOk : Elem → Bool
  | .band b => b.coincident.length == b.nMember && b.unroll.length == b.nMember
  | _ => true

/-- What well-formedness asks of the elements on the path from the root to a node: no Domain below
the root, band flags as long as the members, and no mapping id bound twice. -/
def pathOk (es : List Elem) : Bool :=
  es.tail.all (!·.isDomain) && es.all Elem.flagsOk && decide (es.flatMap Elem.mappingIds).Nodup

/-- A well-formed tree. -/
structure WellFormed (root : ScheduleTree) : Prop where
  root_isDomain : root.elem.isDomain = true
  paths : ∀ p es, root.path p = some es → pathOk es = true

mutual
/-- Every path through `t`, after the elements `pre` above it, passes `pathOk`. -/
def allPathsOk (pre : List Elem) : ScheduleTree → Bool
  | node e cs => pathOk (pre ++ [e]) && allPathsOkList (pre ++ [e]) cs
def allPathsOkList (pre : List Elem) : List ScheduleTree → Bool
  | [] => true
  | c :: cs => allPathsOk pre c && allPathsOkList pre cs
end

theorem allPathsOk_of_mem {pre : List Elem} :
    ∀ {cs : List ScheduleTree}, allPathsOkList pre cs = true → ∀ c ∈ cs, allPathsOk pre c = true
  | [], _, c, hc => absurd hc (List.not_mem_nil c)
  | c' :: cs, h, c, hc => by
    simp only [allPathsOkList, Bool.and_eq_true] at h
    rcases List.mem_cons.mp hc with rfl | hc
    · exact h.1
    · exact allPathsOk_of_mem h.2 c hc

theorem pathOk_of_allPathsOk {pre : List Elem} {t : ScheduleTree} (h : allPathsOk pre t = true) {p : List Nat}
    {es : List Elem} (hp : t.path p = some es) : pathOk (pre ++ es) = true := by
  induction p generalizing pre t es with
  | nil =>
    obtain ⟨e, cs⟩ := t
    simp only [path_nil, elem_node, Option.some.injEq] at hp
    subst hp
    simp only [allPathsOk, Bool.and_eq_true] at h
    exact h.1
  | cons i p ih =>
    obtain ⟨e, cs⟩ := t
    rw [path_cons] at hp
    obtain ⟨c, hc, hes⟩ := Option.bind_eq_some.mp hp
    obtain ⟨es', hes', rfl⟩ := Option.map_eq_some'.mp hes
    simp only [allPathsOk, Bool.and_eq_true] at h
    have := ih (allPathsOk_of_mem h.2 c (List.getElem?_mem hc)) hes'
    rwa [List.append_assoc, List.singleton_append] at this

/-- **The walk is sound**: a Domain root over a tree whose every path passes is well formed. -/
theorem wellFormed_of_allPathsOk {root : ScheduleTree} (hd : root.elem.isDomain = true)
    (h : allPathsOk [] root = true) : WellFormed root :=
  ⟨hd, fun _ _ hp => pathOk_of_allPathsOk h hp⟩

/-- In a well-formed tree the root is the only Domain node. -/
theorem WellFormed.elemAt_ne_domain {root : ScheduleTree} (h : WellFormed root) {p : List Nat} (hp : p ≠ [])
    (d : USet) : root.elemAt p ≠ some (.domain d) := by
  intro he
  have hg : (root.get? p).isSome := by rw [elemAt] at he; cases hg : root.get? p <;> simp_all
  obtain ⟨ancs, ha⟩ := Option.isSome_iff_exists.mp ((ancestors_isSome root p).trans hg)
  obtain _ | ⟨a, as⟩ := ancs
  · exact hp (List.length_eq_zero.mp (length_of_ancestors ha).symm)
  have hok := h.paths p _ (by simp [path, ha, he] : root.path p = some (a :: as ++ [.domain d]))
  simp [pathOk, Elem.isDomain] at hok

end Polyhedral
