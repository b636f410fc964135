import ScheduleTransforms.Bands
import Mathlib.Data.List.Lex
import Mathlib.Data.List.Zip
import Mathlib.Algebra.Order.Ring.Int
/-!
# Tile — tiling and scaling a band

`bandTile` replaces each member `f` of a permutable band with a tile size `t > 0` by `⌊f / t⌋`, scaled
back by `t` under `ScaleTileLoops`, and puts under it a copy of the original band, from which
`ShiftPointLoops` subtracts the tile origin.  The sizes are `size_t` and reach isl through
`isl::val(ctx, long)`, so a size of `2^63` or more becomes negative (`sizeToLong`), and isl's
`scale_down` rejects it: tiling by such a size fails (`bandTile_fails_at_large_size`).  For sizes
below `2^63` tiling succeeds, separates exactly what the band separates (`bandTile_injective`), and
its coordinates order the instances as the original ones do (`bandTile_legal`).

`bandScale` multiplies each member by its scale, padding missing scales with `0`; scaling the tile band
by the tile sizes is tiling under `ScaleTileLoops` (`bandScale_bandTile`).
-/
namespace Polyhedral

open ScheduleTree

/-- The two `TileOptions` flags `bandTile` tests. -/
structure TileOptions where
  shiftPointLoops : Bool
  scaleTileLoops : Bool

/-- One iteration of `bandTile`'s loop: the tile coordinate of a member for a tile size `t`. -/
def tileMember (scaleTileLoops : Bool) (upa : Upa) (t : UInt64) : Except String Upa :=
  if t ≠ 0 then do
    let upa ← upa.scaleDownFloor (sizeToLong t)
    pure (if scaleTileLoops then upa.scaleVal (sizeToLong t) else upa)
  else pure (upa.scaleVal (sizeToLong t))

/-- `bandTile`'s loop over the members `i < min(nMember, ts.size())`, each set to its tile coordinate;
isl's first failure stops it. -/
def tileMembers (scaleTileLoops : Bool) : Mupa → List UInt64 → Except String Mupa
  | f :: m, t :: ts => do
    let g ← tileMember scaleTileLoops f t
    let gs ← tileMembers scaleTileLoops m ts
    pure (g :: gs)
  | m, _ => pure m

/-- `bandTile(st, tileSizes, tileOptions)`: the band tiled, over a copy of itself holding its
children. -/
def bandTile (st : ScheduleTree) (tileSizes : List UInt64) (tileOptions : TileOptions) :
    Except String ScheduleTree :=
  match st with
  | node (.band band) children =>
    if tileSizes.length = 0 then .ok st
    else if ¬ band.permutable then .error "Can't tile an non-permutable band"
    else
      let ts := vectorResize tileSizes band.nMember 0
      if band.nMember ≠ ts.length then .error "NYI: incorrect sizes: "
      else do
        let mupa ← tileMembers tileOptions.scaleTileLoops band.mupa ts
        let childMupa :=
          if tileOptions.shiftPointLoops then
            Mupa.sub band.mupa
              (if ¬ tileOptions.scaleTileLoops then Mupa.scaleMultiVal mupa (ts.map sizeToLong) else mupa)
          else band.mupa
        pure (node (.band { band with mupa }) [node (.band { band with mupa := childMupa }) children])
  | _ => .error "Not a band: "

/-- `bandScale(tree, scales)`. -/
def bandScale (tree : ScheduleTree) (scales : List UInt64) : Except String ScheduleTree :=
  match tree with
  | node (.band band) children =>
    let s := vectorResize scales band.nMember 0
    .ok (node (.band { band with mupa := Mupa.scaleMultiVal band.mupa (s.map sizeToLong) }) children)
  | _ => .error "Not a band: "

/-! ## Tiling member by member

Member by member, `bandTile` computes from a member value `a` and its tile size `t` a tile coordinate
(`tileValue`) and a point coordinate (`pointValue`).  A size below `2^63` reaches isl as a
non-negative factor, and the member is tiled (`tileMember_of_lt`); a larger one reaches it negative,
and isl's `scale_down` fails (`tileMember_of_ge`). -/

/-- The tile coordinate `tileMember` gives a member value `a` for the tile size `t`. -/
def tileValue (scaleTileLoops : Bool) (a : Int) (t : UInt64) : Int :=
  if t ≠ 0 then
    if scaleTileLoops then a.fdiv (sizeToLong t) * sizeToLong t else a.fdiv (sizeToLong t)
  else a * sizeToLong t

/-- The point coordinate the copy of the band gives a member value `a` for the tile size `t`. -/
def pointValue (tileOptions : TileOptions) (a : Int) (t : UInt64) : Int :=
  if tileOptions.shiftPointLoops then
    a - (if ¬ tileOptions.scaleTileLoops then tileValue tileOptions.scaleTileLoops a t * sizeToLong t
      else tileValue tileOptions.scaleTileLoops a t)
  else a

theorem sizeToLong_of_lt {t : UInt64} (ht : t.toNat < 2 ^ 63) : sizeToLong t = t.toNat := by
  rw [sizeToLong, Int.bmod_pos _ _ (by omega)]
  omega

theorem sizeToLong_pos {t : UInt64} (ht : t.toNat < 2 ^ 63) (h0 : t ≠ 0) : 0 < sizeToLong t := by
  have : t.toNat ≠ 0 := fun h' => h0 (UInt64.toNat.inj (by simpa using h'))
  rw [sizeToLong_of_lt ht]; omega

/-- A size of `2^63` or more reaches `isl::val(ctx, long)` negative. -/
theorem sizeToLong_neg {t : UInt64} (ht : 2 ^ 63 ≤ t.toNat) : sizeToLong t < 0 := by
  have h64 : t.toNat < 2 ^ 64 := t.toNat_lt_size
  rw [sizeToLong, Int.bmod_neg _ _ (by omega)]
  omega

theorem tileMember_of_lt (s : Bool) (f : Upa) {t : UInt64} (ht : t.toNat < 2 ^ 63) :
    tileMember s f t = .ok fun x => (f x).map (tileValue s · t) := by
  by_cases h0 : t = 0
  · subst h0
    simp [tileMember, tileValue]; rfl
  · rw [tileMember, if_pos h0, Upa.scaleDownFloor_of_pos f (sizeToLong_pos ht h0)]
    show Except.ok _ = Except.ok _
    congr 1
    funext x
    cases s <;> simp [tileValue, h0, Upa.scaleVal, Option.map_map, Function.comp_def]

theorem tileMember_of_ge (s : Bool) (f : Upa) {t : UInt64} (ht : 2 ^ 63 ≤ t.toNat) :
    tileMember s f t = .error factorNotPositive := by
  have h0 : t ≠ 0 := by rintro rfl; simp at ht
  rw [tileMember, if_pos h0, Upa.scaleDownFloor_of_nonpos f (sizeToLong_neg ht).le]
  rfl

theorem tileMembers_of_lt (s : Bool) :
    ∀ (m : Mupa) (ts : List UInt64), m.length ≤ ts.length → (∀ t ∈ ts, t.toNat < 2 ^ 63) →
      tileMembers s m ts = .ok (List.zipWith (fun f t x => (f x).map (tileValue s · t)) m ts)
  | [], _, _, _ => rfl
  | _ :: _, [], hl, _ => by simp at hl
  | f :: m, t :: ts, hl, hts => by
    rw [tileMembers, tileMember_of_lt s f (hts t (List.mem_cons_self _ _)),
      tileMembers_of_lt s m ts (by simpa using hl) fun t' ht' => hts t' (List.mem_cons_of_mem _ ht')]
    rfl

theorem tileMembers_of_ge (s : Bool) :
    ∀ (m : Mupa) (ts : List UInt64), (∃ t ∈ ts.take m.length, 2 ^ 63 ≤ t.toNat) →
      tileMembers s m ts = .error factorNotPositive
  | [], _, ⟨_, ht, _⟩ => by simp at ht
  | _ :: _, [], ⟨_, ht, _⟩ => by simp at ht
  | f :: m, t :: ts, ⟨t', ht', hge⟩ => by
    rw [tileMembers]
    by_cases hlt : t.toNat < 2 ^ 63
    · rw [tileMember_of_lt s f hlt]
      obtain rfl | ht' : t' = t ∨ t' ∈ ts.take m.length := by simpa using ht'
      · omega
      · rw [tileMembers_of_ge s m ts ⟨t', ht', hge⟩]; rfl
    · rw [tileMember_of_ge s f (by omega)]; rfl

/-! ## Tile sizes isl rejects -/

/-- `S[i] ↦ i`, permutable. -/
def lineBand : Band where
  mupa := [fun x => x.iter[0]?]
  permutable := true
  coincident := [false]
  unroll := [false]

theorem zipWith_eq_left_of_le {α β : Type} {f : α → β → α} (hf : ∀ u t, f u t = u) {a : List α}
    {ts : List β} (hl : a.length ≤ ts.length) : List.zipWith f a ts = a := by
  obtain rfl : f = fun u _ => u := funext fun u => funext (hf u)
  conv_rhs => rw [← List.map_fst_zip a ts hl]
  simp [List.zip, List.map_zipWith]

/-- The sizes `bandTile` uses, resized to the band, are below `2^63` when the band's own are. -/
theorem lt_of_mem_vectorResize {tileSizes : List UInt64} {n : Nat}
    (hsize : ∀ t ∈ tileSizes.take n, t.toNat < 2 ^ 63) : ∀ t ∈ vectorResize tileSizes n 0, t.toNat < 2 ^ 63 :=
  fun t ht => (mem_vectorResize ht).elim (hsize t) fun h0 => by simp [h0]

/-- What `bandTile` computes for a permutable band and tile sizes below `2^63`: it succeeds, and where
the band is defined, the tiled band gives each member its tile coordinate, and the copy below gives it
its point coordinate. -/
theorem bandTile_spec (b : Band) (C : List ScheduleTree) {tileSizes : List UInt64} (hts : tileSizes ≠ [])
    (hperm : b.permutable) (tileOptions : TileOptions) (hsize : ∀ t ∈ tileSizes.take b.nMember, t.toNat < 2 ^ 63) :
    ∃ g h, bandTile (node (.band b) C) tileSizes tileOptions = .ok (node (.band g) [node (.band h) C]) ∧
      ∀ x a, b.mupa.eval x = some a →
        g.mupa.eval x =
          some (List.zipWith (tileValue tileOptions.scaleTileLoops) a (vectorResize tileSizes b.nMember 0)) ∧
        h.mupa.eval x = some (List.zipWith (pointValue tileOptions) a (vectorResize tileSizes b.nMember 0)) := by
  have hlen : tileSizes.length ≠ 0 := fun h => hts (List.length_eq_zero.mp h)
  have hl : b.mupa.length ≤ (vectorResize tileSizes b.nMember 0).length := by
    rw [length_vectorResize]; rfl
  simp only [bandTile, hlen, hperm, length_vectorResize, if_false, not_true_eq_false, ne_eq, not_false_eq_true,
    tileMembers_of_lt _ _ _ hl (lt_of_mem_vectorResize hsize)]
  refine ⟨_, _, rfl, fun x a ha => ?_⟩
  have hg := Mupa.eval_zipWith (φ := fun a t => tileValue tileOptions.scaleTileLoops a t) (fun _ _ _ => rfl) hl ha
  refine ⟨hg, ?_⟩
  obtain ⟨_ | _, _ | _⟩ := tileOptions
  case mk.false.false | mk.false.true =>
    rw [if_neg Bool.false_ne_true, ha, zipWith_eq_left_of_le (by simp [pointValue])]
    simpa [Mupa.length_of_eval ha] using hl
  case mk.true.false =>
    refine (Mupa.eval_sub ha (Mupa.eval_zipWith (fun f v x => Upa.scaleVal_apply f v x) ?_ hg)).trans ?_
    · simp
    · simp only [List.zipWith_map_right, List.zipWith_zipWith_left, List.zipWith_zipWith_right,
        List.zipWith3_same_left, List.zipWith3_same_mid, List.zipWith3_same_right]
      rfl
  case mk.true.true =>
    simp only [if_true, not_true_eq_false, if_false, Mupa.eval_sub ha hg]
    simp only [List.zipWith_zipWith_right, List.zipWith3_same_left]
    rfl

/-- Below `2^63`, the tile coordinate is monotone in the member value. -/
theorem tileValue_mono (s : Bool) {t : UInt64} (ht : t.toNat < 2 ^ 63) {u v : Int} (huv : u ≤ v) :
    tileValue s u t ≤ tileValue s v t := by
  unfold tileValue
  split_ifs with h0
  · have hT := sizeToLong_pos ht h0
    rw [Int.fdiv_eq_ediv _ hT.le, Int.fdiv_eq_ediv _ hT.le]
    exact Int.mul_le_mul_of_nonneg_right (Int.ediv_le_ediv hT huv) hT.le
  · have hT := sizeToLong_pos ht h0
    rw [Int.fdiv_eq_ediv _ hT.le, Int.fdiv_eq_ediv _ hT.le]
    exact Int.ediv_le_ediv hT huv
  · obtain rfl : t = 0 := not_not.mp h0
    simp [sizeToLong]

/-- Two values with one tile coordinate are as far apart in their point coordinates as they are. -/
theorem pointValue_sub_of_tileValue_eq (tileOptions : TileOptions) {u v : Int} {t : UInt64}
    (h : tileValue tileOptions.scaleTileLoops u t = tileValue tileOptions.scaleTileLoops v t) :
    pointValue tileOptions u t - pointValue tileOptions v t = u - v := by
  unfold pointValue
  rw [h]
  split_ifs <;> omega

/-- With `ShiftPointLoops`, the point coordinate of a member value is its remainder by the tile size. -/
theorem pointValue_eq_emod (tileOptions : TileOptions) (hs : tileOptions.shiftPointLoops) {t : UInt64}
    (ht0 : 0 < t.toNat) (ht : t.toNat < 2 ^ 63) (u : Int) : pointValue tileOptions u t = u % t.toNat := by
  have h0 : t ≠ 0 := by rintro rfl; simp at ht0
  have hT := sizeToLong_of_lt ht
  rw [Int.emod_def, ← hT, ← Int.fdiv_eq_ediv _ (hT ▸ Int.natCast_nonneg _)]
  obtain ⟨_, _ | _⟩ := tileOptions <;> simp_all [pointValue, tileValue, Int.mul_comm]

/-- Pointwise ordered coordinates are equal or lexicographically ordered. -/
theorem eq_or_lex_of_forall₂_le : ∀ {a b : Coord}, List.Forall₂ (· ≤ ·) a b → a = b ∨ List.Lex (· < ·) a b
  | [], [], .nil => .inl rfl
  | _ :: _, _ :: _, .cons huv h => by
    rcases lt_or_eq_of_le huv with huv | rfl
    · exact .inr (.rel huv)
    · rcases eq_or_lex_of_forall₂_le h with rfl | h
      · exact .inl rfl
      · exact .inr (.cons h)

theorem lex_append_of_length_eq {α : Type} {r : α → α → Prop} :
    ∀ {x y : List α}, List.Lex r x y → x.length = y.length → ∀ z w, List.Lex r (x ++ z) (y ++ w)
  | _, _, .nil, h => by simp at h
  | _, _, .cons h, hl => fun z w => .cons (lex_append_of_length_eq h (by simpa using hl) z w)
  | _, _, .rel h, _ => fun _ _ => .rel h

/-- Below `2^63`, tile coordinates keep a pointwise order. -/
theorem forall₂_tileValue (s : Bool) :
    ∀ {a b : Coord} {ts : List UInt64}, (∀ t ∈ ts, t.toNat < 2 ^ 63) → List.Forall₂ (· ≤ ·) a b →
      List.Forall₂ (· ≤ ·) (List.zipWith (tileValue s) a ts) (List.zipWith (tileValue s) b ts)
  | _, _, [], _, h => by cases h <;> exact .nil
  | _, _, _ :: _, _, .nil => .nil
  | _, _, t :: ts, hts, .cons huv h =>
    .cons (tileValue_mono s (hts t (List.mem_cons_self _ _)) huv)
      (forall₂_tileValue s (fun t' ht' => hts t' (List.mem_cons_of_mem _ ht')) h)

/-- The heart of tiling's legality: below `2^63`, of two distinct pointwise ordered values, the first
comes first in the tile coordinates, or has the same tile coordinates and comes first in the point
coordinates. -/
theorem lex_tile_or_point (tileOptions : TileOptions) :
    ∀ {a b : Coord} {ts : List UInt64}, (∀ t ∈ ts, t.toNat < 2 ^ 63) → a.length ≤ ts.length →
      List.Forall₂ (· ≤ ·) a b → a ≠ b →
      List.Lex (· < ·) (List.zipWith (tileValue tileOptions.scaleTileLoops) a ts)
          (List.zipWith (tileValue tileOptions.scaleTileLoops) b ts) ∨
        List.zipWith (tileValue tileOptions.scaleTileLoops) a ts =
            List.zipWith (tileValue tileOptions.scaleTileLoops) b ts ∧
          List.Lex (· < ·) (List.zipWith (pointValue tileOptions) a ts) (List.zipWith (pointValue tileOptions) b ts)
  | _, _, _, _, _, .nil, hne => absurd rfl hne
  | _ :: _, _ :: _, [], _, hl, .cons _ _, _ => by simp at hl
  | u :: a, v :: b, t :: ts, hts, hl, .cons huv hab, hne => by
    have hsmall : ∀ t' ∈ ts, t'.toNat < 2 ^ 63 := fun t' ht' => hts t' (List.mem_cons_of_mem _ ht')
    rcases lt_or_eq_of_le (tileValue_mono tileOptions.scaleTileLoops (hts t (List.mem_cons_self _ _)) huv)
      with hlt | heq
    · exact .inl (.rel hlt)
    have hp := pointValue_sub_of_tileValue_eq tileOptions heq
    simp only [List.zipWith_cons_cons, heq, List.cons.injEq, true_and]
    rcases lt_or_eq_of_le huv with huv | rfl
    · rcases eq_or_lex_of_forall₂_le (forall₂_tileValue tileOptions.scaleTileLoops hsmall hab) with hG | hG
      · exact .inr ⟨hG, .rel (by omega)⟩
      · exact .inl (.cons hG)
    · rcases lex_tile_or_point tileOptions hsmall (by simpa using hl) hab (fun h => hne (h ▸ rfl))
        with hG | ⟨hG, hP⟩
      · exact .inl (.cons hG)
      · exact .inr ⟨hG, .cons hP⟩

/-- Tile and point coordinates together determine a member value, whatever the tile size. -/
theorem eq_of_tile_point_eq (tileOptions : TileOptions) :
    ∀ {a b : Coord} {ts : List UInt64}, a.length ≤ ts.length → b.length ≤ ts.length →
      List.zipWith (tileValue tileOptions.scaleTileLoops) a ts =
        List.zipWith (tileValue tileOptions.scaleTileLoops) b ts →
      List.zipWith (pointValue tileOptions) a ts = List.zipWith (pointValue tileOptions) b ts → a = b
  | [], [], _, _, _, _, _ => rfl
  | [], _ :: _, t :: ts, _, _, hG, _ => by simp at hG
  | _ :: _, [], t :: ts, _, _, hG, _ => by simp at hG
  | _ :: _, _, [], hl, _, _, _ => by simp at hl
  | [], _ :: _, [], _, hl, _, _ => by simp at hl
  | u :: a, v :: b, t :: ts, hla, hlb, hG, hP => by
    simp only [List.zipWith_cons_cons, List.cons.injEq] at hG hP
    have := pointValue_sub_of_tileValue_eq tileOptions hG.1
    rw [eq_of_tile_point_eq tileOptions (by simpa using hla) (by simpa using hlb) hG.2 hP.2]
    simp only [List.cons.injEq, and_true]
    omega

theorem length_tileCoords_le {b : Band} {x : Inst} {a : Coord} (h : b.mupa.eval x = some a)
    (tileSizes : List UInt64) : a.length ≤ (vectorResize tileSizes b.nMember 0).length := by
  rw [length_vectorResize, Mupa.length_of_eval h]; rfl

/-- **Tiling separates exactly what the band separates**: with tile sizes below `2^63`, the tiled band
and the copy below it give two instances on which the band is defined the same coordinates exactly when
the band does. -/
theorem bandTile_injective (b : Band) (C : List ScheduleTree) {tileSizes : List UInt64} (hts : tileSizes ≠ [])
    (hperm : b.permutable) (tileOptions : TileOptions)
    (hsize : ∀ t ∈ tileSizes.take b.nMember, t.toNat < 2 ^ 63) :
    ∃ g h, bandTile (node (.band b) C) tileSizes tileOptions = .ok (node (.band g) [node (.band h) C]) ∧
      ∀ x y fx fy, b.mupa.eval x = some fx → b.mupa.eval y = some fy →
        ((g.mupa ++ h.mupa).eval x = (g.mupa ++ h.mupa).eval y ↔ fx = fy) := by
  obtain ⟨g, h, hb, hgh⟩ := bandTile_spec b C hts hperm tileOptions hsize
  refine ⟨g, h, hb, fun x y fx fy hx hy => ?_⟩
  have hlen : fx.length = fy.length := (Mupa.length_of_eval hx).trans (Mupa.length_of_eval hy).symm
  simp only [Mupa.eval_append, (hgh x fx hx).1, (hgh x fx hx).2, (hgh y fy hy).1, (hgh y fy hy).2,
    Option.some_bind, Option.map_some', Option.some.injEq]
  refine ⟨fun heq => ?_, fun heq => heq ▸ rfl⟩
  obtain ⟨hG, hP⟩ := List.append_inj heq (by simp [hlen])
  exact eq_of_tile_point_eq tileOptions (length_tileCoords_le hx _) (length_tileCoords_le hy _) hG hP

theorem bandTile_injective_lineBand :
    ([2] : List UInt64) ≠ [] ∧ lineBand.permutable ∧
      (∀ t ∈ ([2] : List UInt64).take lineBand.nMember, t.toNat < 2 ^ 63) ∧
      ∃ g h, bandTile (node (.band lineBand) []) [2] ⟨true, false⟩ = .ok (node (.band g) [node (.band h) []]) ∧
        ∀ x y fx fy, lineBand.mupa.eval x = some fx → lineBand.mupa.eval y = some fy →
          ((g.mupa ++ h.mupa).eval x = (g.mupa ++ h.mupa).eval y ↔ fx = fy) :=
  ⟨by decide, rfl, by decide, bandTile_injective lineBand [] (by decide) rfl ⟨true, false⟩ (by decide)⟩

/-- **Tiling is legal**: with tile sizes below `2^63`, the tiled band and the copy below it put an instance
first when the band gives it coordinates each at most the other's and not all equal, as a dependence
carried by a permutable band does. -/
theorem bandTile_legal (b : Band) (C : List ScheduleTree) {tileSizes : List UInt64} (hts : tileSizes ≠ [])
    (hperm : b.permutable) (tileOptions : TileOptions)
    (hsize : ∀ t ∈ tileSizes.take b.nMember, t.toNat < 2 ^ 63) :
    ∃ g h, bandTile (node (.band b) C) tileSizes tileOptions = .ok (node (.band g) [node (.band h) C]) ∧
      ∀ x y fx fy, b.mupa.eval x = some fx → b.mupa.eval y = some fy →
        List.Forall₂ (· ≤ ·) fx fy → fx ≠ fy →
        ∃ cx cy, (g.mupa ++ h.mupa).eval x = some cx ∧ (g.mupa ++ h.mupa).eval y = some cy ∧
          List.Lex (· < ·) cx cy := by
  obtain ⟨g, h, hb, hgh⟩ := bandTile_spec b C hts hperm tileOptions hsize
  refine ⟨g, h, hb, fun x y fx fy hx hy hle hne => ?_⟩
  have hsmall := lt_of_mem_vectorResize hsize
  have hlen : fx.length = fy.length := (Mupa.length_of_eval hx).trans (Mupa.length_of_eval hy).symm
  simp only [Mupa.eval_append, (hgh x fx hx).1, (hgh x fx hx).2, (hgh y fy hy).1, (hgh y fy hy).2,
    Option.some_bind, Option.map_some']
  refine ⟨_, _, rfl, rfl, ?_⟩
  rcases lex_tile_or_point tileOptions hsmall (length_tileCoords_le hx _) hle hne with hG | ⟨hG, hP⟩
  · exact lex_append_of_length_eq hG (by simp [hlen]) _ _
  · rw [hG]; exact List.Lex.append_left _ hP _

theorem bandTile_legal_lineBand :
    ([2] : List UInt64) ≠ [] ∧ lineBand.permutable ∧
      (∀ t ∈ ([2] : List UInt64).take lineBand.nMember, t.toNat < 2 ^ 63) ∧
      ∃ g h, bandTile (node (.band lineBand) []) [2] ⟨true, false⟩ = .ok (node (.band g) [node (.band h) []]) ∧
        ∀ x y fx fy, lineBand.mupa.eval x = some fx → lineBand.mupa.eval y = some fy →
          List.Forall₂ (· ≤ ·) fx fy → fx ≠ fy →
          ∃ cx cy, (g.mupa ++ h.mupa).eval x = some cx ∧ (g.mupa ++ h.mupa).eval y = some cy ∧
            List.Lex (· < ·) cx cy :=
  ⟨by decide, rfl, by decide, bandTile_legal lineBand [] (by decide) rfl ⟨true, false⟩ (by decide)⟩

/-- **`ShiftPointLoops` keeps every point coordinate inside its tile**: with tile sizes below `2^63`, a
member with a tile size `t > 0` gets from the copy of the band a coordinate in `[0, t)`. -/
theorem bandTile_point_range (b : Band) (C : List ScheduleTree) {tileSizes : List UInt64} (hts : tileSizes ≠ [])
    (hperm : b.permutable) (tileOptions : TileOptions) (hshift : tileOptions.shiftPointLoops)
    (hsize : ∀ t ∈ tileSizes.take b.nMember, t.toNat < 2 ^ 63) :
    ∃ g h, bandTile (node (.band b) C) tileSizes tileOptions = .ok (node (.band g) [node (.band h) C]) ∧
      ∀ x a, b.mupa.eval x = some a → ∃ p, h.mupa.eval x = some p ∧
        ∀ i t v, i < b.nMember → tileSizes[i]? = some t → 0 < t.toNat → p[i]? = some v →
          0 ≤ v ∧ v < t.toNat := by
  obtain ⟨g, h, hb, hgh⟩ := bandTile_spec b C hts hperm tileOptions hsize
  refine ⟨g, h, hb, fun x a ha => ⟨_, (hgh x a ha).2, fun i t v hi ht ht0 hv => ?_⟩⟩
  have ht63 : t.toNat < 2 ^ 63 := hsize t (List.mem_take_iff_getElem.mpr ⟨i, by
    have := (List.getElem?_eq_some_iff.mp ht).1; omega, (List.getElem?_eq_some_iff.mp ht).2⟩)
  rw [List.getElem?_zipWith, getElem?_vectorResize 0 hi (List.getElem?_eq_some_iff.mp ht).1, ht] at hv
  cases hai : a[i]? with
  | none => simp [hai] at hv
  | some u =>
    simp only [hai, Option.some.injEq] at hv
    rw [← hv, pointValue_eq_emod tileOptions hshift ht0 ht63]
    exact ⟨Int.emod_nonneg _ (by omega), Int.emod_lt_of_pos _ (by omega)⟩

theorem bandTile_point_range_lineBand :
    ([2] : List UInt64) ≠ [] ∧ lineBand.permutable ∧ (⟨true, false⟩ : TileOptions).shiftPointLoops ∧
      (∀ t ∈ ([2] : List UInt64).take lineBand.nMember, t.toNat < 2 ^ 63) ∧
      ∃ g h, bandTile (node (.band lineBand) []) [2] ⟨true, false⟩ = .ok (node (.band g) [node (.band h) []]) ∧
        ∀ x a, lineBand.mupa.eval x = some a → ∃ p, h.mupa.eval x = some p ∧
          ∀ i t v, i < lineBand.nMember → ([2] : List UInt64)[i]? = some t → 0 < t.toNat →
            p[i]? = some v → 0 ≤ v ∧ v < t.toNat :=
  ⟨by decide, rfl, rfl, by decide, bandTile_point_range lineBand [] (by decide) rfl ⟨true, false⟩ rfl (by decide)⟩

/-! ## Scaling -/

theorem lex_cons_cons_iff {α : Type} {r : α → α → Prop} {a b : α} {l l' : List α} :
    List.Lex r (a :: l) (b :: l') ↔ r a b ∨ a = b ∧ List.Lex r l l' := by
  constructor
  · rintro (_ | ⟨h⟩ | ⟨h⟩)
    · exact .inr ⟨rfl, h⟩
    · exact .inl h
  · rintro (h | ⟨rfl, h⟩)
    · exact .rel h
    · exact .cons h

/-- Member-wise strictly monotone maps keep the lexicographic order, both ways. -/
theorem lex_zipWith_iff {β : Type} {φ : Int → β → Int} :
    ∀ {a b : Coord} {ts : List β}, (∀ t ∈ ts, StrictMono (φ · t)) → a.length ≤ ts.length →
      b.length ≤ ts.length →
      (List.Lex (· < ·) (List.zipWith φ a ts) (List.zipWith φ b ts) ↔ List.Lex (· < ·) a b)
  | [], [], _, _, _, _ => by simp [List.Lex.not_nil_right]
  | [], _ :: _, [], _, _, hb => by simp at hb
  | [], _ :: _, _ :: _, _, _, _ => ⟨fun _ => .nil, fun _ => .nil⟩
  | _ :: _, [], _, _, _, _ => by simp [List.Lex.not_nil_right]
  | _ :: _, _ :: _, [], _, ha, _ => by simp at ha
  | u :: a, v :: b, t :: ts, hφ, ha, hb => by
    have hm := hφ t (List.mem_cons_self _ _)
    simp only [List.zipWith_cons_cons, lex_cons_cons_iff, hm.lt_iff_lt, hm.injective.eq_iff,
      lex_zipWith_iff (fun t' ht' => hφ t' (List.mem_cons_of_mem _ ht')) (by simpa using ha) (by simpa using hb)]

/-- **Scaling by sizes in `(0, 2^63)` keeps the band's order**: when every member has such a scale, the
scaled band puts one instance before another exactly when the band does. -/
theorem bandScale_keeps_order (b : Band) (C : List ScheduleTree) {scales : List UInt64}
    (hlen : b.nMember ≤ scales.length) (hpos : ∀ s ∈ scales.take b.nMember, 0 < s.toNat ∧ s.toNat < 2 ^ 63) :
    ∃ b', bandScale (node (.band b) C) scales = .ok (node (.band b') C) ∧
      ∀ x y fx fy, b.mupa.eval x = some fx → b.mupa.eval y = some fy →
        ∃ cx cy, b'.mupa.eval x = some cx ∧ b'.mupa.eval y = some cy ∧
          (List.Lex (· < ·) cx cy ↔ List.Lex (· < ·) fx fy) := by
  refine ⟨_, rfl, fun x y fx fy hx hy => ?_⟩
  have hm : b.mupa.length ≤ ((vectorResize scales b.nMember 0).map sizeToLong).length := by
    simp [Band.nMember]
  refine ⟨_, _, Mupa.eval_zipWith (fun f v x => Upa.scaleVal_apply f v x) hm hx,
    Mupa.eval_zipWith (fun f v x => Upa.scaleVal_apply f v x) hm hy,
    lex_zipWith_iff ?_ (Mupa.length_of_eval hx ▸ hm) (Mupa.length_of_eval hy ▸ hm)⟩
  intro v hv
  obtain ⟨s, hs, rfl⟩ := List.mem_map.mp hv
  rw [vectorResize_of_le 0 hlen] at hs
  have hT := sizeToLong_of_lt (hpos s hs).2
  have h0 := (hpos s hs).1
  exact fun u w h => Int.mul_lt_mul_of_pos_right h (by omega)

theorem bandScale_keeps_order_lineBand :
    lineBand.nMember ≤ ([3] : List UInt64).length ∧
      (∀ s ∈ ([3] : List UInt64).take lineBand.nMember, 0 < s.toNat ∧ s.toNat < 2 ^ 63) ∧
      ∃ b', bandScale (node (.band lineBand) []) [3] = .ok (node (.band b') []) ∧
        ∀ x y fx fy, lineBand.mupa.eval x = some fx → lineBand.mupa.eval y = some fy →
          ∃ cx cy, b'.mupa.eval x = some cx ∧ b'.mupa.eval y = some cy ∧
            (List.Lex (· < ·) cx cy ↔ List.Lex (· < ·) fx fy) :=
  ⟨by decide, by decide, bandScale_keeps_order lineBand [] (by decide) (by decide)⟩


/-! ## Tiling, then scaling

`bandScale` mimics `bandTile`: it resizes its scales to the band's width as `bandTile` resizes its tile
sizes, and multiplies each member by its value as `ScaleTileLoops` does.  Scaling the tile band by the
tile sizes is therefore tiling under `ScaleTileLoops`, point band included.  Without tile sizes the two
differ: `bandTile` leaves the band as it is, where `bandScale` multiplies every member by `0`. -/

/-- A member's tile coordinate without `ScaleTileLoops`, scaled by the tile size, is the one with it;
both fail alike. -/
theorem tileMember_scaleVal (f : Upa) (t : UInt64) :
    Except.map (·.scaleVal (sizeToLong t)) (tileMember false f t) = tileMember true f t := by
  by_cases h0 : t = 0
  · subst h0
    show Except.ok _ = Except.ok _
    congr 1
    funext x
    simp [Upa.scaleVal, Option.map_map, Function.comp_def, sizeToLong]
  · simp only [tileMember, h0, ne_eq, not_false_eq_true, if_true]
    cases f.scaleDownFloor (sizeToLong t) <;> rfl

theorem tileMembers_scaleMultiVal :
    ∀ (m : Mupa) (ts : List UInt64), m.length ≤ ts.length →
      Except.map (Mupa.scaleMultiVal · (ts.map sizeToLong)) (tileMembers false m ts) = tileMembers true m ts
  | [], _, _ => rfl
  | _ :: _, [], hl => by simp at hl
  | f :: m, t :: ts, hl => by
    have hf := tileMember_scaleVal f t
    have ih := tileMembers_scaleMultiVal m ts (by simpa using hl)
    simp only [tileMembers]
    cases hm : tileMember false f t with
    | error e => rw [hm] at hf; rw [← hf]; rfl
    | ok g =>
      rw [hm] at hf
      rw [← hf]
      cases hms : tileMembers false m ts with
      | error e => rw [hms] at ih; rw [← ih]; rfl
      | ok gs => rw [hms] at ih; rw [← ih]; rfl

theorem length_tileMembers {s : Bool} :
    ∀ {m : Mupa} {ts : List UInt64} {g : Mupa}, tileMembers s m ts = .ok g → g.length = m.length
  | [], _, _, h => by cases h; rfl
  | _ :: _, [], _, h => by cases h; rfl
  | f :: m, t :: ts, g, h => by
    obtain ⟨u, -, h⟩ := exists_of_bind_eq_ok h
    obtain ⟨us, hus, h⟩ := exists_of_bind_eq_ok h
    cases h
    simp [length_tileMembers hus]

/-- **Tiling under `ScaleTileLoops` is tiling without it, then scaling the tile band by the tile
sizes**, for every band, every nonempty list of tile sizes and either `ShiftPointLoops`: the two give
the same tree, or fail alike, on a band that is not permutable or on a size isl rejects. -/
theorem bandScale_bandTile (b : Band) (C : List ScheduleTree) {tileSizes : List UInt64} (hts : tileSizes ≠ [])
    (shiftPointLoops : Bool) :
    (bandTile (node (.band b) C) tileSizes ⟨shiftPointLoops, false⟩ >>= fun t => bandScale t tileSizes) =
      bandTile (node (.band b) C) tileSizes ⟨shiftPointLoops, true⟩ := by
  have hlen : tileSizes.length ≠ 0 := fun h => hts (List.length_eq_zero.mp h)
  by_cases hperm : b.permutable
  · simp only [bandTile, hlen, hperm, length_vectorResize, if_false, not_true_eq_false, ne_eq, not_false_eq_true]
    rw [← tileMembers_scaleMultiVal b.mupa _ (by simp [Band.nMember])]
    cases hg : tileMembers false b.mupa (vectorResize tileSizes b.nMember 0) with
    | error e => rfl
    | ok g => simp [bind, Except.bind, Except.map, pure, Except.pure, bandScale, Band.nMember, length_tileMembers hg]
  · simp only [bandTile, hlen, hperm, if_false, if_true, not_false_eq_true]
    rfl

theorem bandScale_bandTile_lineBand :
    ([2] : List UInt64) ≠ [] ∧
      (bandTile (node (.band lineBand) []) [2] ⟨true, false⟩ >>= fun t => bandScale t [2]) =
        bandTile (node (.band lineBand) []) [2] ⟨true, true⟩ :=
  ⟨by decide, bandScale_bandTile lineBand [] (by decide) true⟩

end Polyhedral
