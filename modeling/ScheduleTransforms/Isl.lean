import Mathlib.Data.Set.Basic
import Mathlib.Data.Int.Defs
import Mathlib.Algebra.Order.Ring.Nat
/-!
# Isl — the sets, maps and affine functions the transformations compute with

`schedule_transforms.cc` does all of its arithmetic through isl.  A statement instance is a statement name
with an iteration vector; a `union_set` is a set of instances; a schedule `union_map` relates instances to
integer coordinate tuples; an extension `union_map` relates coordinate tuples to the instances it
introduces; a `union_pw_aff` is a partial integer function of an instance and a `multi_union_pw_aff` the
list of its members.  Parameters are fixed: a set is the set its constraints denote for one value of them.
Where isl fails on its input, as `scale_down` does on a factor that is not positive, the operation
returns isl's error.

A tuple's space is its name and length, and the relational operations only pair tuples that agree on
them, as isl only combines the parts of a union that live in the same space.

What isl decides and a `Set` does not compute — emptiness, the number of spaces of a union, the input
dimension of a map, and the simplification `gist` — is the structure `Isl`, whose laws are only those
the transformations rely on: a `true` emptiness answer is right, and a gist agrees with its argument
on the context.
-/
namespace Polyhedral

/-- A statement instance: the statement's tuple name and its iteration vector. -/
structure Inst where
  stmt : String
  iter : List Int
deriving DecidableEq

/-- A schedule coordinate tuple. -/
abbrev Coord := List Int

/-- `isl::union_set` of statement instances. -/
abbrev USet := Set Inst

/-- A schedule `isl::union_map`, from instances to coordinate tuples. -/
abbrev UMap := Set (Inst × Coord)

/-- An extension `isl::union_map`, from coordinate tuples to the instances it introduces. -/
abbrev ExtMap := Set (Coord × Inst)

/-- `isl::union_pw_aff`: an integer function of the instances of its domain. -/
abbrev Upa := Inst → Option Int

/-- `isl::multi_union_pw_aff`: its members, in order. -/
abbrev Mupa := List Upa

/-- A context `isl::set`, over the parameter values. -/
abbrev ParamSet := Set (List Int)

/-- An isl identifier. -/
abbrev Id := String

/-- The zero-argument instance `id[]` a label statement executes. -/
def Inst.label (id : Id) : Inst := ⟨id, []⟩

/-- `isl::val(ctx, long)` applied to a `size_t`: the conversion keeps the low 64 bits and reads them
as a signed number. -/
def sizeToLong (t : UInt64) : Int := Int.bmod t.toNat (2 ^ 64)

namespace USet

/-- `union_set::universe`: every instance of a space of `s`. -/
def spaceUniverse (s : USet) : USet :=
  {x | ∃ y ∈ s, x.stmt = y.stmt ∧ x.iter.length = y.iter.length}

/-- `union_set::apply`: the image of a set of coordinate tuples under an extension. -/
def apply (s : Set Coord) (e : ExtMap) : USet := {y | ∃ c ∈ s, (c, y) ∈ e}

theorem subset_spaceUniverse (s : USet) : s ⊆ spaceUniverse s := fun x hx => ⟨x, hx, rfl, rfl⟩

end USet

/-- The error isl raises when `scale_down` is given a factor that is not positive. -/
def factorNotPositive : String := "factor needs to be positive"

namespace Upa

/-- `upa.scale_down(v).floor()`: isl rejects a factor that is not positive. -/
def scaleDownFloor (f : Upa) (v : Int) : Except String Upa :=
  if 0 < v then .ok fun x => (f x).map (·.fdiv v) else .error factorNotPositive

/-- `upa.scale_val(v)`. -/
def scaleVal (f : Upa) (v : Int) : Upa := fun x => (f x).map (· * v)

/-- `upa.sub(g)`: defined where both are. -/
def sub (f g : Upa) : Upa := fun x => do
  let a ← f x
  let b ← g x
  pure (a - b)

theorem scaleDownFloor_of_pos (f : Upa) {v : Int} (hv : 0 < v) :
    f.scaleDownFloor v = .ok fun x => (f x).map (·.fdiv v) := if_pos hv

theorem scaleDownFloor_of_nonpos (f : Upa) {v : Int} (hv : v ≤ 0) : f.scaleDownFloor v = .error factorNotPositive :=
  if_neg (by omega)

@[simp] theorem scaleVal_apply (f : Upa) (v : Int) (x : Inst) : f.scaleVal v x = (f x).map (· * v) :=
  rfl

@[simp] theorem sub_some {f g : Upa} {x : Inst} {a b : Int} (hf : f x = some a) (hg : g x = some b) :
    f.sub g x = some (a - b) := by
  simp [sub, hf, hg]

end Upa

namespace Mupa

/-- The coordinates a `multi_union_pw_aff` gives an instance, where every member is defined. -/
def eval (m : Mupa) (x : Inst) : Option Coord := m.mapM (· x)

/-- `mupa.scale_multi_val(mv)`, member by member. -/
def scaleMultiVal (m : Mupa) (vs : List Int) : Mupa := List.zipWith Upa.scaleVal m vs

/-- `mupa.sub(mupa')`, member by member. -/
def sub (m m' : Mupa) : Mupa := List.zipWith Upa.sub m m'

@[simp] theorem eval_nil (x : Inst) : eval [] x = some [] := rfl

@[simp] theorem eval_cons (f : Upa) (m : Mupa) (x : Inst) :
    eval (f :: m) x = (f x).bind fun a => (eval m x).map (a :: ·) := by
  simp only [eval, List.mapM_cons]
  cases f x <;> cases List.mapM (· x) m <;> rfl

theorem eval_append (m m' : Mupa) (x : Inst) :
    eval (m ++ m') x = (eval m x).bind fun c => (eval m' x).map (c ++ ·) := by
  induction m with
  | nil => rw [List.nil_append, eval_nil, Option.some_bind]; cases eval m' x <;> rfl
  | cons f m ih =>
    rw [List.cons_append, eval_cons, eval_cons, ih]
    cases f x <;> cases eval m x <;> cases eval m' x <;> rfl

theorem length_of_eval {m : Mupa} {x : Inst} {c : Coord} (h : eval m x = some c) :
    c.length = m.length := by
  induction m generalizing c with
  | nil => cases h; rfl
  | cons f m ih =>
    rw [eval_cons] at h
    cases hf : f x with
    | none => simp [hf] at h
    | some a =>
      cases hm : eval m x with
      | none => simp [hf, hm] at h
      | some d => simp only [hf, hm, Option.some_bind, Option.map_some', Option.some.injEq] at h
                  rw [← h, List.length_cons, ih hm, List.length_cons]

/-- A `multi_union_pw_aff` built member by member from pointwise maps evaluates member by member. -/
theorem eval_zipWith {β : Type} {F : Upa → β → Upa} {φ : Int → β → Int}
    (hF : ∀ f t x, F f t x = (f x).map (φ · t)) {x : Inst} :
    ∀ {m : Mupa} {ts : List β} {a : Coord}, m.length ≤ ts.length → Mupa.eval m x = some a →
      Mupa.eval (List.zipWith F m ts) x = some (List.zipWith φ a ts)
  | [], _, a, _, h => by rw [Mupa.eval_nil, Option.some.injEq] at h; subst h; rfl
  | _ :: _, [], _, hl, _ => by simp at hl
  | f :: m, t :: ts, a, hl, h => by
    rw [Mupa.eval_cons] at h
    obtain ⟨u, hu, h⟩ := Option.bind_eq_some.mp h
    obtain ⟨a', ha', rfl⟩ := Option.map_eq_some'.mp h
    simp [hF, hu, eval_zipWith hF (by simpa using hl) ha']

/-- `sub` evaluates member by member. -/
theorem eval_sub {x : Inst} :
    ∀ {m m' : Mupa} {a a' : Coord}, Mupa.eval m x = some a → Mupa.eval m' x = some a' →
      Mupa.eval (Mupa.sub m m') x = some (List.zipWith (· - ·) a a')
  | [], _, a, _, h, _ => by rw [Mupa.eval_nil, Option.some.injEq] at h; subst h; rfl
  | _ :: _, [], _, a', _, h' => by rw [Mupa.eval_nil, Option.some.injEq] at h'; subst h'; simp [Mupa.sub]
  | f :: m, g :: m', a, a', h, h' => by
    rw [Mupa.eval_cons] at h h'
    obtain ⟨u, hu, h⟩ := Option.bind_eq_some.mp h
    obtain ⟨b, hb, rfl⟩ := Option.map_eq_some'.mp h
    obtain ⟨u', hu', h'⟩ := Option.bind_eq_some.mp h'
    obtain ⟨b', hb', rfl⟩ := Option.map_eq_some'.mp h'
    have ih := eval_sub hb hb'
    simp only [Mupa.sub] at ih ⊢
    simp [Upa.sub_some hu hu', ih]

end Mupa

namespace UMap

/-- `union_map::from_domain`: every instance of the domain, at the empty tuple. -/
def fromDomain (d : USet) : UMap := {p | p.1 ∈ d ∧ p.2 = []}

/-- `union_map::from(mupa)`: the graph of a `multi_union_pw_aff`. -/
def fromMupa (m : Mupa) : UMap := {p | m.eval p.1 = some p.2}

/-- `flat_range_product`: an instance's tuples under both maps, concatenated. -/
def flatRangeProduct (a b : UMap) : UMap := {p | ∃ c d, (p.1, c) ∈ a ∧ (p.1, d) ∈ b ∧ p.2 = c ++ d}

/-- `intersect_domain`. -/
def intersectDomain (a : UMap) (s : USet) : UMap := {p | p ∈ a ∧ p.1 ∈ s}

/-- `intersect_range`. -/
def intersectRange (a : UMap) (s : Set Coord) : UMap := {p | p ∈ a ∧ p.2 ∈ s}

/-- `union_map::range`. -/
def range (a : UMap) : Set Coord := {c | ∃ x, (x, c) ∈ a}

/-- `union_map::domain`. -/
def domain (a : UMap) : USet := {x | ∃ c, (x, c) ∈ a}

@[simp] theorem mem_fromDomain {d : USet} {p : Inst × Coord} : p ∈ fromDomain d ↔ p.1 ∈ d ∧ p.2 = [] :=
  Iff.rfl

@[simp] theorem mem_fromMupa {m : Mupa} {p : Inst × Coord} : p ∈ fromMupa m ↔ m.eval p.1 = some p.2 :=
  Iff.rfl

@[simp] theorem mem_flatRangeProduct {a b : UMap} {p : Inst × Coord} :
    p ∈ flatRangeProduct a b ↔ ∃ c d, (p.1, c) ∈ a ∧ (p.1, d) ∈ b ∧ p.2 = c ++ d := Iff.rfl

@[simp] theorem mem_intersectDomain {a : UMap} {s : USet} {p : Inst × Coord} :
    p ∈ intersectDomain a s ↔ p ∈ a ∧ p.1 ∈ s := Iff.rfl

@[simp] theorem mem_intersectRange {a : UMap} {s : Set Coord} {p : Inst × Coord} :
    p ∈ intersectRange a s ↔ p ∈ a ∧ p.2 ∈ s := Iff.rfl

@[simp] theorem mem_range {a : UMap} {c : Coord} : c ∈ range a ↔ ∃ x, (x, c) ∈ a := Iff.rfl

@[simp] theorem mem_domain {a : UMap} {x : Inst} : x ∈ domain a ↔ ∃ c, (x, c) ∈ a := Iff.rfl

/-- Stacking two graphs is the graph of the stacked members. -/
theorem flatRangeProduct_fromMupa (a : UMap) (m m' : Mupa) :
    flatRangeProduct (flatRangeProduct a (fromMupa m)) (fromMupa m') =
      flatRangeProduct a (fromMupa (m ++ m')) := by
  ext ⟨x, c⟩
  simp only [mem_flatRangeProduct, mem_fromMupa, Mupa.eval_append]
  constructor
  · rintro ⟨_, d', ⟨c₀, d, h₀, hd, rfl⟩, hd', rfl⟩
    exact ⟨c₀, d ++ d', h₀, by simp [hd, hd'], by simp⟩
  · rintro ⟨c₀, e, h₀, he, rfl⟩
    cases hd : m.eval x with
    | none => simp [hd] at he
    | some d =>
      cases hd' : m'.eval x with
      | none => simp [hd, hd'] at he
      | some d' =>
        simp only [hd, hd', Option.some_bind, Option.map_some', Option.some.injEq] at he
        exact ⟨c₀ ++ d, d', ⟨c₀, d, h₀, rfl, rfl⟩, rfl, by simp [← he]⟩

end UMap

namespace ExtMap

/-- `union_map::reverse`. -/
def reverse (e : ExtMap) : UMap := {p | (p.2, p.1) ∈ e}

/-- `union_map::range` of an extension: the instances it introduces. -/
def range (e : ExtMap) : USet := {y | ∃ c, (c, y) ∈ e}

/-- `isl::map::universe` of the space from `k`-tuples to the label `id[]`. -/
def labelUniverse (k : Nat) (id : Id) : ExtMap := {p | p.1.length = k ∧ p.2 = Inst.label id}

@[simp] theorem mem_reverse {e : ExtMap} {p : Inst × Coord} : p ∈ reverse e ↔ (p.2, p.1) ∈ e := Iff.rfl

@[simp] theorem mem_range {e : ExtMap} {y : Inst} : y ∈ range e ↔ ∃ c, (c, y) ∈ e := Iff.rfl

@[simp] theorem mem_labelUniverse {k : Nat} {id : Id} {p : Coord × Inst} :
    p ∈ labelUniverse k id ↔ p.1.length = k ∧ p.2 = Inst.label id := Iff.rfl

end ExtMap

@[simp] theorem USet.mem_apply {s : Set Coord} {e : ExtMap} {y : Inst} :
    y ∈ USet.apply s e ↔ ∃ c ∈ s, (c, y) ∈ e := Iff.rfl

/-- The answers isl gives that a `Set` does not compute, each with the one law the transformations
rely on.  A multi-dimensional gist is the member-wise `gistUpa`. -/
structure Isl where
  /-- `union_set::is_empty`. -/
  isEmpty : USet → Bool
  eq_empty_of_isEmpty : ∀ s, isEmpty s = true → s = ∅
  /-- `union_set::gist`. -/
  gist : USet → USet → USet
  mem_gist : ∀ s c x, x ∈ c → (x ∈ gist s c ↔ x ∈ s)
  /-- `union_pw_aff::gist`. -/
  gistUpa : Upa → USet → Upa
  gistUpa_eq : ∀ f c x, x ∈ c → gistUpa f c x = f x
  /-- `union_set::n_set`. -/
  nSet : USet → Nat
  /-- `union_map::dim(isl::dim_type::in)`. -/
  inDim : ExtMap → Nat

/-- An isl that never reports emptiness and simplifies nothing: every law holds. -/
def Isl.plain : Isl where
  isEmpty _ := false
  eq_empty_of_isEmpty _ h := Bool.noConfusion h
  gist s _ := s
  mem_gist _ _ _ _ := Iff.rfl
  gistUpa f _ := f
  gistUpa_eq _ _ _ _ := rfl
  nSet _ := 1
  inDim _ := 0

/-- An isl whose emptiness test is exact and whose `gist` keeps only what lies in the context, as isl's
does with the parts of a set in spaces the context lacks. -/
def Isl.Exact (I : Isl) : Prop := (∀ s, I.isEmpty s = true ↔ s = ∅) ∧ ∀ s c, I.gist s c = s ∩ c

/-- Such an isl exists; its emptiness test is classical, so it is built only inside proofs. -/
theorem exists_isl_exact : ∃ I : Isl, I.Exact := by
  classical
  exact ⟨⟨fun s => decide (s = ∅), fun _ h => of_decide_eq_true h, fun s c => s ∩ c,
    fun _ _ _ hx => ⟨And.left, fun h => ⟨h, hx⟩⟩, fun f _ => f, fun _ _ _ _ => rfl, fun _ => 1, fun _ => 0⟩,
    fun _ => decide_eq_true_iff, fun _ _ => rfl⟩

end Polyhedral
