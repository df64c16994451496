import Flambeau.Ops.QMatmul
import Mathlib.Tactic.Ring

namespace Flambeau.Ops
open Systems Forward Forward.Attn

theorem dispatch_mem (h : dispatchQmatmul dtype m = some d) :
    d ∈ qmatmulGfx906 ∧ d.fits dtype m = true := by
  have hfold : ∀ (table : List KernelDescriptor) (hit : Option KernelDescriptor),
      table.foldl (fun hit d => if d.fits dtype m then some d else hit) hit = some d →
        hit = some d ∨ d ∈ table ∧ d.fits dtype m = true := by
    intro table
    induction table with
    | nil => exact fun hit h => .inl h
    | cons first rest ih =>
      intro hit h
      rcases ih _ h with hhit | ⟨hmem, hfits⟩
      · dsimp only at hhit
        by_cases hfirst : first.fits dtype m = true
        · rw [if_pos hfirst] at hhit
          obtain rfl := Option.some.inj hhit
          exact .inr ⟨List.mem_cons_self .., hfirst⟩
        · rw [if_neg hfirst] at hhit
          exact .inl hhit
      · exact .inr ⟨List.mem_cons_of_mem _ hmem, hfits⟩
  rcases hfold qmatmulGfx906 none h with hnone | hmem
  · exact absurd hnone (Option.some_ne_none d).symm
  · exact hmem

theorem dispatch_some (hmem : d ∈ qmatmulGfx906) (hfits : d.fits dtype m = true) :
    ∃ d', dispatchQmatmul dtype m = some d' := by
  have hfold : ∀ (table : List KernelDescriptor) (hit : Option KernelDescriptor),
      hit.isSome ∨ (∃ d ∈ table, d.fits dtype m = true) →
        (table.foldl (fun hit d => if d.fits dtype m then some d else hit) hit).isSome = true := by
    intro table
    induction table with
    | nil =>
      rintro hit (hsome | ⟨d, hd, -⟩)
      · exact hsome
      · exact absurd hd List.not_mem_nil
    | cons first rest ih =>
      intro hit h
      apply ih
      dsimp only
      by_cases hfirst : first.fits dtype m = true
      · rw [if_pos hfirst]
        exact .inl rfl
      · rw [if_neg hfirst]
        rcases h with hsome | ⟨d, hd, hfits⟩
        · exact .inl hsome
        · rcases List.mem_cons.mp hd with rfl | hd
          · exact absurd hfits hfirst
          · exact .inr ⟨d, hd, hfits⟩
  exact Option.isSome_iff_exists.mp (hfold qmatmulGfx906 none (.inr ⟨d, hmem, hfits⟩))

theorem fits_iff (d : KernelDescriptor) (dtype : QDtype) (m : Nat) :
    d.fits dtype m = true ↔ d.mLo ≤ m ∧ m ≤ d.mHi ∧ d.dtypeWeight = dtype := by
  unfold KernelDescriptor.fits
  simp only [Bool.and_eq_true, decide_eq_true_eq, and_assoc]

/-- What every entry of the table has. -/
structure EntryGood (d : KernelDescriptor) (r : Recipe) : Prop where
  weight : r.stem.shape.weight = d.dtypeWeight
  rows_pos : 0 < r.stem.shape.rows
  cols_pos : 0 < r.stem.shape.cols
  rows_dvd : 2 ^ 31 % r.stem.shape.rows = 0
  cols_dvd : 2 ^ 31 % r.stem.shape.cols = 0
  single : r.kind = .mmvq → r.stem.shape.rows = r.rowsPerBlock ∧ r.stem.shape.cols = 1
  tile : r.kind ≠ .mmvq → (r.stem.shape.rows, r.stem.shape.cols) = r.mmqTile
  threads : r.kind ≠ .mmqLdsX64 → r.stem.shape.threads = r.threads
  layout : r.stem.shape.layout = if r.kind = .mmqLdsX64 then .q8_1Mmq else .q8_1
  one : d.mLo ≤ 1 → r.kind = .mmvq
  few : r.kind = .mmqOracle ∨ r.kind = .mmq4Warp → d.mHi < 32 ∧ blockElems d.dtypeWeight = 32
  many : r.kind = .mmqWave64 → 32 ≤ d.mLo
  lds : r.kind = .mmqLdsX64 → 128 ≤ d.mLo ∧ r.stem.shape.threads = 256 ∧ r.stem.shape.rows = 128 ∧
    QmatmulCall.mmqLdsX64Elems r.stem = some (blockElems d.dtypeWeight)

instance (d : KernelDescriptor) (r : Recipe) : Decidable (EntryGood d r) :=
  decidable_of_iff
    (r.stem.shape.weight = d.dtypeWeight ∧ 0 < r.stem.shape.rows ∧ 0 < r.stem.shape.cols ∧
      2 ^ 31 % r.stem.shape.rows = 0 ∧ 2 ^ 31 % r.stem.shape.cols = 0 ∧
      (r.kind = .mmvq → r.stem.shape.rows = r.rowsPerBlock ∧ r.stem.shape.cols = 1) ∧
      (r.kind ≠ .mmvq → (r.stem.shape.rows, r.stem.shape.cols) = r.mmqTile) ∧
      (r.kind ≠ .mmqLdsX64 → r.stem.shape.threads = r.threads) ∧
      (r.stem.shape.layout = if r.kind = .mmqLdsX64 then .q8_1Mmq else .q8_1) ∧
      (d.mLo ≤ 1 → r.kind = .mmvq) ∧
      (r.kind = .mmqOracle ∨ r.kind = .mmq4Warp → d.mHi < 32 ∧ blockElems d.dtypeWeight = 32) ∧
      (r.kind = .mmqWave64 → 32 ≤ d.mLo) ∧
      (r.kind = .mmqLdsX64 → 128 ≤ d.mLo ∧ r.stem.shape.threads = 256 ∧ r.stem.shape.rows = 128 ∧
        QmatmulCall.mmqLdsX64Elems r.stem = some (blockElems d.dtypeWeight)))
    ⟨fun ⟨a, b, c, d, e, f, g, h, i, j, k, l, o⟩ => ⟨a, b, c, d, e, f, g, h, i, j, k, l, o⟩,
      fun ⟨a, b, c, d, e, f, g, h, i, j, k, l, o⟩ => ⟨a, b, c, d, e, f, g, h, i, j, k, l, o⟩⟩

theorem table_good : ∀ d ∈ qmatmulGfx906, EntryGood d (Recipe.fromImplId d.implId) := by
  decide

/-- From 128 rows on the two types have the tiled kernel alone. -/
theorem table_tiled : ∀ d ∈ qmatmulGfx906, d.dtypeWeight = .q4_1 ∨ d.dtypeWeight = .q4_K →
    128 ≤ d.mHi → (Recipe.fromImplId d.implId).kind = .mmqLdsX64 := by
  decide

/-- The types that have a tiled kernel. -/
theorem table_lds : ∀ d ∈ qmatmulGfx906, (Recipe.fromImplId d.implId).kind = .mmqLdsX64 →
    d.dtypeWeight = .q4_0 ∨ d.dtypeWeight = .q4_1 ∨ d.dtypeWeight = .q4_K := by
  decide

theorem digits_unique {a r size : Nat} (hr : r < size) (hr' : r' < size) (h : a * size + r = a' * size + r') :
    a = a' ∧ r = r' := by
  have hpos : 0 < size := Nat.zero_lt_of_lt hr
  have hdiv : (a * size + r) / size = a := by
    rw [Nat.add_comm, Nat.add_mul_div_right _ _ hpos, Nat.div_eq_of_lt hr, Nat.zero_add]
  have hdiv' : (a' * size + r') / size = a' := by
    rw [Nat.add_comm, Nat.add_mul_div_right _ _ hpos, Nat.div_eq_of_lt hr', Nat.zero_add]
  have hsame : a = a' := by rw [← hdiv, h, hdiv']
  subst hsame
  exact ⟨rfl, by omega⟩

/-- A place below `n` is in a block of the grid, and the whole grid stays in `int` range. -/
theorem grid_lt (hdvd : 2 ^ 31 % size = 0) (hn : n < 2 ^ 31) (hg : g < divCeil (QmatmulCall.asU32 n) size)
    (hr : r < size) : g * size + r < 2 ^ 31 := by
  have hword : QmatmulCall.asU32 n = n := Nat.mod_eq_of_lt (by omega)
  have hpos : 0 < size := Nat.zero_lt_of_lt hr
  rw [hword] at hg
  have hblocks : divCeil n size ≤ 2 ^ 31 / size := by
    have hall := Nat.div_mul_cancel (Nat.dvd_of_mod_eq_zero hdvd)
    unfold divCeil
    rw [← Nat.lt_succ_iff, Nat.div_lt_iff_lt_mul hpos, Nat.succ_mul, hall]
    omega
  have hend := Nat.mul_le_mul_right size (show g + 1 ≤ 2 ^ 31 / size by omega)
  rw [Nat.div_mul_cancel (Nat.dvd_of_mod_eq_zero hdvd), Nat.add_mul] at hend
  omega

theorem grid_reaches (hn : n < 2 ^ 31) (hr : r < size) (h : g * size + r < n) :
    g < divCeil (QmatmulCall.asU32 n) size := by
  have hword : QmatmulCall.asU32 n = n := Nat.mod_eq_of_lt (by omega)
  have hcover := le_divCeil_mul (Nat.zero_lt_of_lt hr) n
  rw [hword]
  refine Nat.lt_of_mul_lt_mul_right (a := size) ?_
  omega

namespace QmatmulCall

variable (c : QmatmulCall)

/-- A launch stores the outputs of `count` activation rows from `base` on, each at one place. -/
def Tiles (l : Launch) (base count : Nat) : Prop :=
  ∀ gx gy r s : Nat, l.storeAt gx gy r s =
    if gx * l.shape.rows + r < c.n ∧ gy * l.shape.cols + s < count ∧ r < l.shape.rows ∧
        s < l.shape.cols then
      some (c.output l.act (base + (gy * l.shape.cols + s)) (gx * l.shape.rows + r))
    else none

theorem output_inj (hj : j < c.n) (hj' : j' < c.n)
    (h : (c.output layout i j).dst = (i' * c.n + j' : Nat)) : i = i' ∧ j = j' := by
  have hplace : i * c.n + j = i' * c.n + j' := Int.ofNat_inj.mp h
  exact digits_unique hj hj' hplace

/-- Launches that share out the activation rows store every output once. -/
theorem storesOnce_of_tiles {launch : Nat → Launch} {launches count : Nat}
    (hrows : launches * count = c.m)
    (hpos : ∀ t < launches, 0 < (launch t).shape.rows ∧ 0 < (launch t).shape.cols)
    (htiles : ∀ t < launches, c.Tiles (launch t) (t * count) count) :
    c.StoresOnce ((List.range launches).map launch) := by
  have hget : ∀ t l, ((List.range launches).map launch)[t]? = some l ↔
      t < launches ∧ launch t = l := by
    intro t l
    rw [List.getElem?_map]
    by_cases ht : t < launches
    · rw [List.getElem?_range ht, Option.map_some, Option.some.injEq]
      exact ⟨fun h => ⟨ht, h⟩, fun h => h.2⟩
    · rw [List.getElem?_eq_none (by rw [List.length_range]; omega)]
      exact ⟨fun h => absurd h.symm (Option.some_ne_none l), fun h => absurd h.1 ht⟩
  intro i hi j hj
  have hcount : 0 < count := by
    rcases Nat.eq_zero_or_pos count with hzero | hpos
    · rw [hzero, Nat.mul_zero] at hrows
      omega
    · exact hpos
  have ht : i / count < launches := by
    rw [Nat.div_lt_iff_lt_mul hcount, hrows]
    exact hi
  have hi' : i / count * count + i % count = i := Nat.div_add_mod' i count
  obtain ⟨hrowsPos, hcolsPos⟩ := hpos _ ht
  have hj' := Nat.div_add_mod' j (launch (i / count)).shape.rows
  have hs' := Nat.div_add_mod' (i % count) (launch (i / count)).shape.cols
  have hlast := Nat.mod_lt i hcount
  refine ⟨i / count, j / (launch (i / count)).shape.rows,
    i % count / (launch (i / count)).shape.cols, j % (launch (i / count)).shape.rows,
    i % count % (launch (i / count)).shape.cols, launch (i / count), (hget _ _).mpr ⟨ht, rfl⟩, ?_, ?_⟩
  · rw [htiles _ ht, hj', hs', hi',
      if_pos ⟨hj, hlast, Nat.mod_lt _ hrowsPos, Nat.mod_lt _ hcolsPos⟩]
  · intro t' gx' gy' r' s' l' w hl hstore hdst
    obtain ⟨ht', rfl⟩ := (hget _ _).mp hl
    rw [htiles _ ht'] at hstore
    split at hstore
    · rename_i hplace
      obtain ⟨hrow, hcol, hr, hs⟩ := hplace
      obtain rfl := Option.some.inj hstore
      obtain ⟨hact, hweight⟩ := c.output_inj hrow hj hdst
      have hshared : t' * count + (gy' * (launch t').shape.cols + s') =
          i / count * count + i % count := by omega
      obtain ⟨hlaunch, hrest⟩ := digits_unique hcol hlast hshared
      subst hlaunch
      obtain ⟨hgx, hr'⟩ := digits_unique hr (Nat.mod_lt j hrowsPos) (hweight.trans hj'.symm)
      obtain ⟨hgy, hs''⟩ := digits_unique hs (Nat.mod_lt (i % count) hcolsPos) (hrest.trans hs'.symm)
      rw [hgx, hgy, hr', hs'']
    · exact absurd hstore (Option.some_ne_none w).symm

theorem asI32_nat {x : Nat} (h : x < 2 ^ 31) : asI32 x = x := asI32_eq (by omega) (by omega)

theorem blockElems_dvd (dtype : QDtype) : 32 ∣ blockElems dtype := by
  cases dtype <;> decide

theorem blockElems_pos (dtype : QDtype) : 0 < blockElems dtype := by
  cases dtype <;> decide

/-- A super-block has as many activation blocks as it has 32 elements. -/
theorem units_blocks : c.k / blockElems c.dtypeWeight * (blockElems c.dtypeWeight / 32) = c.k / 32 := by
  obtain ⟨p, hp⟩ := blockElems_dvd c.dtypeWeight
  obtain ⟨q, hq⟩ := c.k_blocks
  have hpos := blockElems_pos c.dtypeWeight
  have hk : c.k = 32 * (q * p) := by
    rw [hq, hp]
    ring
  rw [hq, Nat.mul_div_cancel_left q hpos, ← hq, hk, Nat.mul_div_cancel_left _ (by decide), hp,
    Nat.mul_div_cancel_left p (by decide)]

theorem units_le : c.k / blockElems c.dtypeWeight ≤ c.k / 32 := by
  rw [← c.units_blocks]
  obtain ⟨p, hp⟩ := blockElems_dvd c.dtypeWeight
  have hpos := blockElems_pos c.dtypeWeight
  have hfactor : 0 < blockElems c.dtypeWeight / 32 := by omega
  exact Nat.le_mul_of_pos_right _ hfactor

/-- It is enough to know the stores inside the grid. -/
theorem tiles_of_store {l : Launch} {base count : Nat} (hn : c.n < 2 ^ 31)
    (hdvd : 2 ^ 31 % l.shape.rows = 0) (hx : l.gridX = divCeil (asU32 c.n) l.shape.rows)
    (hy : ∀ gy s, s < l.shape.cols → gy * l.shape.cols + s < count → gy < l.gridY)
    (hstore : ∀ gx gy r s : Nat, gx < l.gridX → gy < l.gridY → r < l.shape.rows → s < l.shape.cols →
      gx * l.shape.rows + r < 2 ^ 31 → l.kernelStore gx gy r s =
        if gx * l.shape.rows + r < c.n ∧ gy * l.shape.cols + s < count then
          some (c.output l.act (base + (gy * l.shape.cols + s)) (gx * l.shape.rows + r))
        else none) : c.Tiles l base count := by
  intro gx gy r s
  unfold Launch.storeAt
  by_cases hgrid : gx < l.gridX ∧ gy < l.gridY ∧ r < l.shape.rows ∧ s < l.shape.cols
  · obtain ⟨hgx, hgy, hr, hs⟩ := hgrid
    have hrow := grid_lt hdvd hn (by rw [← hx]; exact hgx) hr
    rw [if_pos ⟨hgx, hgy, hr, hs⟩, hstore gx gy r s hgx hgy hr hs hrow]
    by_cases hinside : gx * l.shape.rows + r < c.n ∧ gy * l.shape.cols + s < count
    · rw [if_pos hinside, if_pos ⟨hinside.1, hinside.2, hr, hs⟩]
    · rw [if_neg hinside, if_neg fun h => hinside ⟨h.1, h.2.1⟩]
  · rw [if_neg hgrid, if_neg]
    rintro ⟨hrow, hcol, hr, hs⟩
    refine hgrid ⟨?_, hy gy s hs hcol, hr, hs⟩
    rw [hx]
    exact grid_reaches hn hr hrow

/-- A launch of an MMVQ kernel: its block has a column for each activation row. -/
theorem mmvq_tiles {l : Launch} {base units : Nat} (hn : c.n < 2 ^ 31) (hk : c.k / 32 < 2 ^ 31)
    (hdvd : 2 ^ 31 % l.shape.rows = 0) (hweight : l.shape.weight = c.dtypeWeight)
    (hunits : units = c.k / blockElems c.dtypeWeight)
    (hx : l.gridX = divCeil (asU32 c.n) l.shape.rows) (hy : l.gridY = 1)
    (hargs : l.args = .mmvq (asI32 c.n) (asI32 units)) (hact : l.act = .q8_1)
    (hdst : l.dstOffset = base * (c.n * 4)) (hoffset : l.actOffset = base * (c.k / 32 * 36)) :
    c.Tiles l base l.shape.cols := by
  have hunitsLt : c.k / blockElems c.dtypeWeight < 2 ^ 31 := by
    have hle := c.units_le
    omega
  apply c.tiles_of_store hn hdvd hx
  · intro gy s hs hcol
    rw [hy]
    rcases Nat.eq_zero_or_pos gy with hzero | hpos
    · omega
    · have hmul := Nat.le_mul_of_pos_left l.shape.cols hpos
      omega
  · intro gx gy r s hgx hgy hr hs hrow
    have hgy : gy = 0 := by omega
    subst hgy
    have hdst' : l.dstOffset / 4 = base * c.n := by
      rw [hdst, ← Nat.mul_assoc, Nat.mul_div_cancel _ (by decide)]
    have hoffset' : l.actOffset / 36 = base * (c.k / 32) := by
      rw [hoffset, ← Nat.mul_assoc, Nat.mul_div_cancel _ (by decide)]
    have hblocks := c.units_blocks
    unfold Launch.kernelStore
    rw [hargs]
    simp only [hweight, hunits, hdst', hoffset', asI32_nat hrow, asI32_nat hn, asI32_nat hunitsLt]
    by_cases hlt : gx * l.shape.rows + r < c.n
    · rw [if_pos (Int.ofNat_lt.mpr hlt), if_pos ⟨hlt, by omega⟩, hact]
      unfold output
      rw [← hblocks]
      congr 2
      · push_cast
        ring
      · push_cast
        ring
    · rw [if_neg (fun h => hlt (Int.ofNat_lt.mp h)), if_neg fun h => hlt h.1]

/-- A column of the grid is in range, and so is the row of the activations. -/
theorem mmq_tiles {l : Launch} {units : Nat} (hn : c.n < 2 ^ 31) (hm : c.m < 2 ^ 31)
    (hk : c.k / 32 < 2 ^ 31) (hdvd : 2 ^ 31 % l.shape.rows = 0) (hcols : 2 ^ 31 % l.shape.cols = 0)
    (helems : blockElems c.dtypeWeight = 32) (hunits : units = c.k / blockElems c.dtypeWeight)
    (hx : l.gridX = divCeil (asU32 c.n) l.shape.rows)
    (hy : l.gridY = divCeil (asU32 c.m) l.shape.cols)
    (hargs : l.args = .mmq (asI32 c.n) (asI32 c.m) (asI32 units)) (hact : l.act = .q8_1)
    (hdst : l.dstOffset = 0) (hoffset : l.actOffset = 0) : c.Tiles l 0 c.m := by
  apply c.tiles_of_store hn hdvd hx
  · intro gy s hs hcol
    rw [hy]
    exact grid_reaches hm hs hcol
  · intro gx gy r s hgx hgy hr hs hrow
    have hcol := grid_lt hcols hm (by rw [← hy]; exact hgy) hs
    unfold Launch.kernelStore
    rw [hargs]
    simp only [hunits, hdst, hoffset, helems, asI32_nat hrow, asI32_nat hcol, asI32_nat hn, asI32_nat hm,
      asI32_nat hk]
    by_cases hinside : gx * l.shape.rows + r < c.n ∧ gy * l.shape.cols + s < c.m
    · rw [if_pos ⟨Int.ofNat_lt.mpr hinside.1, Int.ofNat_lt.mpr hinside.2⟩, if_pos hinside, hact]
      unfold output
      rw [helems]
      congr 2
      · push_cast
        ring
      · push_cast
        ring
    · rw [if_neg (fun h => hinside ⟨Int.ofNat_lt.mp h.1, Int.ofNat_lt.mp h.2⟩), if_neg hinside]

theorem wave64_tiles {l : Launch} (hn : c.n < 2 ^ 31) (hm : c.m < 2 ^ 31) (hk : c.k < 2 ^ 31)
    (hdvd : 2 ^ 31 % l.shape.rows = 0) (hcols : 2 ^ 31 % l.shape.cols = 0)
    (hweight : l.shape.weight = c.dtypeWeight)
    (hx : l.gridX = divCeil (asU32 c.n) l.shape.rows)
    (hy : l.gridY = divCeil (asU32 c.m) l.shape.cols)
    (hargs : l.args = .wave64 (asI32 c.k) (asI32 c.n) (asI32 c.m) (asI32 c.k) (asI32 c.n))
    (hact : l.act = .q8_1) (hdst : l.dstOffset = 0) (hoffset : l.actOffset = 0) :
    c.Tiles l 0 c.m := by
  apply c.tiles_of_store hn hdvd hx
  · intro gy s hs hcol
    rw [hy]
    exact grid_reaches hm hs hcol
  · intro gx gy r s hgx hgy hr hs hrow
    have hcol := grid_lt hcols hm (by rw [← hy]; exact hgy) hs
    have hunits : (c.k : Int).tdiv (blockElems c.dtypeWeight) =
        (c.k / blockElems c.dtypeWeight : Nat) := (Int.ofNat_tdiv _ _).symm
    have hblocks : (c.k : Int).tdiv 32 = (c.k / 32 : Nat) := (Int.ofNat_tdiv _ _).symm
    unfold Launch.kernelStore
    rw [hargs]
    simp only [hweight, hdst, hoffset, asI32_nat hrow, asI32_nat hcol, asI32_nat hn, asI32_nat hm,
      asI32_nat hk, hunits, hblocks]
    by_cases hinside : gx * l.shape.rows + r < c.n ∧ gy * l.shape.cols + s < c.m
    · rw [if_pos ⟨Int.ofNat_lt.mpr hinside.1, Int.ofNat_lt.mpr hinside.2, Int.ofNat_lt.mpr hinside.1⟩,
        if_pos hinside, hact]
      unfold output
      congr 2
      · push_cast
        ring
      · push_cast
        ring
    · rw [if_neg (fun h => hinside ⟨Int.ofNat_lt.mp h.1, Int.ofNat_lt.mp h.2.1⟩), if_neg hinside]

theorem lds_tiles {l : Launch} (hn : c.n < 2 ^ 31) (hm : c.m < 2 ^ 31) (hk : c.k < 2 ^ 31)
    (hdvd : 2 ^ 31 % l.shape.rows = 0) (hcols : 2 ^ 31 % l.shape.cols = 0)
    (hweight : l.shape.weight = c.dtypeWeight) (haligned : c.n % l.shape.rows = 0)
    (hweights : c.n * (c.k / blockElems c.dtypeWeight) < 2 ^ 31) (hacts : c.m * 36 < 2 ^ 31)
    (hx : l.gridX = divCeil (asU32 c.n) l.shape.rows)
    (hy : l.gridY = divCeil (asU32 c.m) l.shape.cols)
    (hargs : l.args = .lds (asI32 (c.k / blockElems c.dtypeWeight * blockElems c.dtypeWeight : Nat))
      (asI32 c.n) (asI32 c.m) (asI32 c.m) (asI32 (c.k / blockElems c.dtypeWeight : Nat)) (asI32 c.n))
    (hact : l.act = .q8_1Mmq) (hdst : l.dstOffset = 0) : c.Tiles l 0 c.m := by
  apply c.tiles_of_store hn hdvd hx
  · intro gy s hs hcol
    rw [hy]
    exact grid_reaches hm hs hcol
  · intro gx gy r s hgx hgy hr hs hrow
    have hcol := grid_lt hcols hm (by rw [← hy]; exact hgy) hs
    have hinsideRow : gx * l.shape.rows + r < c.n := by
      have hblocks := Nat.div_mul_cancel (Nat.dvd_of_mod_eq_zero haligned)
      have hword : asU32 c.n = c.n := Nat.mod_eq_of_lt (by omega)
      have hpos : 0 < l.shape.rows := Nat.zero_lt_of_lt hr
      rw [hx, hword] at hgx
      have hgrid : divCeil c.n l.shape.rows ≤ c.n / l.shape.rows := by
        unfold divCeil
        rw [← Nat.lt_succ_iff, Nat.div_lt_iff_lt_mul hpos, Nat.succ_mul, hblocks]
        omega
      have hend := Nat.mul_le_mul_right l.shape.rows (show gx + 1 ≤ c.n / l.shape.rows by omega)
      rw [hblocks, Nat.add_mul] at hend
      omega
    have hunitsLt : c.k / blockElems c.dtypeWeight < 2 ^ 31 :=
      Nat.lt_of_le_of_lt (Nat.div_le_self _ _) hk
    have hwhole : c.k / blockElems c.dtypeWeight * blockElems c.dtypeWeight = c.k :=
      Nat.div_mul_cancel c.k_blocks
    have hunits : (c.k : Int).tdiv (blockElems c.dtypeWeight) =
        (c.k / blockElems c.dtypeWeight : Nat) := (Int.ofNat_tdiv _ _).symm
    have hbound : ∀ j < c.n, j * (c.k / blockElems c.dtypeWeight) < 2 ^ 31 := fun j hj =>
      Nat.lt_of_le_of_lt (Nat.mul_le_mul_right _ (Nat.le_of_lt hj)) hweights
    have hproduct : ∀ j < c.n, asI32 ((j : Int) * (c.k / blockElems c.dtypeWeight : Nat)) =
        (j * (c.k / blockElems c.dtypeWeight) : Nat) := by
      intro j hj
      rw [← Int.natCast_mul]
      exact asI32_nat (hbound j hj)
    unfold Launch.kernelStore
    rw [hargs]
    simp only [hweight, hdst, hwhole, asI32_nat hrow, asI32_nat hcol, asI32_nat hn, asI32_nat hm,
      asI32_nat hk, asI32_nat hunitsLt, hunits, hproduct _ hinsideRow,
      hproduct (gx * l.shape.rows) (by omega), hproduct r (by omega)]
    by_cases hinside : gy * l.shape.cols + s < c.m
    · have htile : asI32 (((gy * l.shape.cols : Nat) : Int) * 36) = (gy * l.shape.cols * 36 : Nat) :=
        asI32_nat (x := gy * l.shape.cols * 36) (by omega)
      have hblock : ((gy * l.shape.cols * 36 : Nat) : Int).tdiv 36 = (gy * l.shape.cols : Nat) := by
        have hdiv := (Int.ofNat_tdiv (gy * l.shape.cols * 36) 36).symm
        rw [Nat.mul_div_cancel _ (by decide)] at hdiv
        exact hdiv
      have hweight' : (if l.shape.checked = true then
          (((gx * l.shape.rows + r) * (c.k / blockElems c.dtypeWeight) : Nat) : Int)
        else ((gx * l.shape.rows * (c.k / blockElems c.dtypeWeight) : Nat) : Int) +
          (r * (c.k / blockElems c.dtypeWeight) : Nat)) =
          ((gx * l.shape.rows + r) * (c.k / blockElems c.dtypeWeight) : Nat) := by
        split
        · rfl
        · push_cast
          ring
      rw [hweight', htile, hblock, if_pos ⟨fun _ => ⟨Int.ofNat_lt.mpr hinsideRow,
        Int.ofNat_lt.mpr hinsideRow⟩, Int.ofNat_lt.mpr hinside⟩, if_pos ⟨hinsideRow, hinside⟩, hact]
      unfold output
      rw [Option.some.injEq, Store.mk.injEq]
      refine ⟨?_, rfl, rfl, ?_, rfl⟩
      · push_cast
        ring
      · push_cast
        ring
    · rw [if_neg (fun h => hinside (Int.ofNat_lt.mp h.2)), if_neg fun h => hinside h.2]

/-- The routes that launch an MMVQ kernel for each row, and those with few rows. -/
def Looped : Prop :=
  c.m < 32 ∨ simpleKernel c.dtypeWeight ≠ none ∧ (c.k % 128 ≠ 0 ∨ c.n % 128 ≠ 0) ∨
    c.dtypeWeight = .q4_1 ∧ 128 ≤ c.m ∧ c.k % 128 ≠ 0

/-- The sizes whose products stay in the `int` range of the kernels. The last product is the
row distance of the `Q4_K` tiled kernel. -/
structure InInt : Prop where
  n_lt : c.n < 2 ^ 31
  blocks_lt : c.k / 32 < 2 ^ 31
  batch : ¬c.Looped → c.m < 2 ^ 31 ∧ c.k < 2 ^ 31
  tiled : 128 ≤ c.m → c.k % 128 = 0 → c.n % 128 = 0 → c.actQ81Mmq ≠ 0 →
    c.dtypeWeight = .q4_0 ∨ c.dtypeWeight = .q4_1 ∨ c.dtypeWeight = .q4_K →
      c.n * (c.k / blockElems c.dtypeWeight) < 2 ^ 31 ∧ c.m * 36 < 2 ^ 31 ∧
        (c.dtypeWeight = .q4_K → c.m * (c.k / 128) * 36 < 2 ^ 31)

/-- The late check that the table's route lacks. -/
def TiledAligned : Prop :=
  c.dtypeWeight = .q4_1 ∨ c.dtypeWeight = .q4_K → 128 ≤ c.m → c.k % 128 = 0 → c.actQ81Mmq ≠ 0 →
    c.n % 128 = 0

theorem sound_launchAll {dev : Device} {launches : List Launch} (honce : c.StoresOnce launches)
    (hkernels : ∀ l ∈ launches, c.KernelFits l)
    (hlds : ∀ l ∈ launches, isLds l.args = true → c.k % 128 = 0 ∧ c.n % 128 = 0 ∧ c.actQ81Mmq ≠ 0) :
    c.Sound (launchAll dev launches) := by
  unfold launchAll
  split
  · exact ⟨honce, hkernels, hlds⟩
  · trivial

theorem rows_sound {kernel : Kernel} {units rowsPerBlock threads : Nat} (hint : c.InInt)
    (hweight : kernel.shape.weight = c.dtypeWeight) (hlayout : kernel.shape.layout = .q8_1)
    (hthreads : kernel.shape.threads = threads) (hrows : kernel.shape.rows = rowsPerBlock)
    (hcols : kernel.shape.cols = 1) (hpos : 0 < kernel.shape.rows)
    (hdvd : 2 ^ 31 % kernel.shape.rows = 0) (hunits : units = c.k / blockElems c.dtypeWeight)
    (dev : Device) : c.Sound
      (launchAll dev ((List.range c.m).map (c.mmvqRow kernel units rowsPerBlock threads))) := by
  apply c.sound_launchAll
  · apply c.storesOnce_of_tiles (Nat.mul_one c.m)
    · intro t _
      refine ⟨hpos, ?_⟩
      change 0 < kernel.shape.cols
      rw [hcols]
      exact Nat.one_pos
    · intro t _
      have htiles : c.Tiles (c.mmvqRow kernel units rowsPerBlock threads t) t kernel.shape.cols :=
        c.mmvq_tiles hint.n_lt hint.blocks_lt hdvd hweight hunits (by rw [← hrows]; rfl) rfl rfl rfl rfl rfl
      rw [hcols] at htiles
      rw [Nat.mul_one]
      exact htiles
  · intro l hl
    obtain ⟨t, -, rfl⟩ := List.mem_map.mp hl
    exact ⟨hweight, hlayout, hthreads⟩
  · intro l hl hargs
    obtain ⟨t, -, rfl⟩ := List.mem_map.mp hl
    exact absurd hargs Bool.false_ne_true

theorem one_sound {l : Launch} (hpos : 0 < l.shape.rows ∧ 0 < l.shape.cols)
    (htiles : c.Tiles l 0 c.m) (hfits : c.KernelFits l)
    (hlds : isLds l.args = true → c.k % 128 = 0 ∧ c.n % 128 = 0 ∧ c.actQ81Mmq ≠ 0) (dev : Device) :
    c.Sound (launchAll dev [l]) := by
  have hone : [l] = (List.range 1).map fun _ => l := rfl
  apply c.sound_launchAll
  · rw [hone]
    refine c.storesOnce_of_tiles (Nat.one_mul c.m) (fun _ _ => hpos) fun t ht => ?_
    have hfirst : t * c.m = 0 := by
      rw [Nat.lt_one_iff.mp ht, Nat.zero_mul]
    rw [hfirst]
    exact htiles
  · intro l' hl'
    rw [List.mem_singleton.mp hl']
    exact hfits
  · intro l' hl'
    rw [List.mem_singleton.mp hl']
    exact hlds

theorem batched_sound {kernel : Nat → Kernel} {units rowsPerBlock threads : Nat} (hint : c.InInt)
    (hshape : (kernel c.m).shape = Kernel.batchedShape c.dtypeWeight threads rowsPerBlock c.m)
    (hpos : 0 < rowsPerBlock) (hdvd : 2 ^ 31 % rowsPerBlock = 0)
    (hunits : units = c.k / blockElems c.dtypeWeight) (dev : Device) :
    c.Sound (c.batched kernel units rowsPerBlock threads dev) := by
  unfold batched
  split
  · apply c.one_sound
    · change 0 < (kernel c.m).shape.rows ∧ 0 < (kernel c.m).shape.cols
      rw [hshape]
      exact ⟨hpos, c.m_pos⟩
    · have hcols : (kernel c.m).shape.cols = c.m := by
        rw [hshape]
        rfl
      have hrows : (kernel c.m).shape.rows = rowsPerBlock := by
        rw [hshape]
        rfl
      have hweight : (kernel c.m).shape.weight = c.dtypeWeight := by
        rw [hshape]
        rfl
      have htiles : c.Tiles {
          kernel := kernel c.m, act := .q8_1, actOffset := 0, dstOffset := 0,
          gridX := divCeil (asU32 c.n) rowsPerBlock, gridY := 1, threads := threads,
          args := .mmvq (asI32 c.n) (asI32 units) } 0 (kernel c.m).shape.cols :=
        c.mmvq_tiles hint.n_lt hint.blocks_lt (hrows.symm ▸ hdvd) hweight hunits
          (congrArg (divCeil (asU32 c.n)) hrows.symm) rfl rfl rfl (Nat.zero_mul _).symm
          (Nat.zero_mul _).symm
      rw [hcols] at htiles
      exact htiles
    · change (kernel c.m).shape.weight = _ ∧ (kernel c.m).shape.layout = _ ∧
        (kernel c.m).shape.threads = _
      rw [hshape]
      exact ⟨rfl, rfl, rfl⟩
    · exact fun hargs => absurd hargs Bool.false_ne_true
  · trivial

/-- The recipe of the table's route is that of an entry for the call, or of one for a single row. -/
theorem tableRecipe_entry (h : c.tableRecipe = some r) :
    ∃ d ∈ qmatmulGfx906, r = Recipe.fromImplId d.implId ∧ d.dtypeWeight = c.dtypeWeight ∧
      (d.mLo ≤ c.m ∧ c.m ≤ d.mHi ∧ (r.kind = .mmqLdsX64 → c.k % 128 = 0) ∨ r.kind = .mmvq) := by
  unfold tableRecipe at h
  cases hd : dispatchQmatmul c.dtypeWeight c.m with
  | none =>
    rw [hd] at h
    exact absurd h (Option.some_ne_none r).symm
  | some d =>
    obtain ⟨hmem, hfits⟩ := dispatch_mem hd
    obtain ⟨hlo, hhi, hdtype⟩ := (fits_iff d _ _).mp hfits
    rw [hd] at h
    dsimp only at h
    split at h
    · obtain ⟨d', hd', rfl⟩ := Option.map_eq_some_iff.mp h
      obtain ⟨hmem', hfits'⟩ := dispatch_mem hd'
      obtain ⟨hlo', -, hdtype'⟩ := (fits_iff d' _ _).mp hfits'
      exact ⟨d', hmem', rfl, hdtype', .inr ((table_good d' hmem').one hlo')⟩
    · rename_i hkind
      obtain rfl := Option.some.inj h
      refine ⟨d, hmem, rfl, hdtype, .inl ⟨hlo, hhi, fun hlds => ?_⟩⟩
      exact Decidable.not_not.mp fun hk => hkind ⟨hlds, hk⟩

theorem mmqLaunch_sound {d : KernelDescriptor} {r : Recipe} (hint : c.InInt) (hgood : EntryGood d r)
    (hdtype : d.dtypeWeight = c.dtypeWeight) (hkind : r.kind = .mmqOracle ∨ r.kind = .mmq4Warp)
    (hentry : d.mLo ≤ c.m ∧ c.m ≤ d.mHi ∧ (r.kind = .mmqLdsX64 → c.k % 128 = 0) ∨ r.kind = .mmvq)
    (dev : Device) : c.Sound (launchAll dev [c.mmqLaunch r]) := by
  obtain ⟨hfew, helems⟩ := hgood.few hkind
  have hlds : r.kind ≠ .mmqLdsX64 := by
    rcases hkind with h | h <;> rw [h] <;> decide
  have hsingle : r.kind ≠ .mmvq := by
    rcases hkind with h | h <;> rw [h] <;> decide
  obtain ⟨hlo, hhi, -⟩ | hmmvq := hentry
  · have hweight := hgood.weight.trans hdtype
    have hlayout := hgood.layout
    have htile := hgood.tile hsingle
    rw [if_neg hlds] at hlayout
    rw [hdtype] at helems
    apply c.one_sound (l := c.mmqLaunch r) ⟨hgood.rows_pos, hgood.cols_pos⟩
    · refine c.mmq_tiles hint.n_lt (by omega) hint.blocks_lt hgood.rows_dvd hgood.cols_dvd helems rfl
        ?_ ?_ rfl rfl rfl rfl
      · change divCeil _ _ = divCeil _ r.stem.shape.rows
        rw [← htile]
      · change divCeil _ _ = divCeil _ r.stem.shape.cols
        rw [← htile]
    · exact ⟨hweight, hlayout, hgood.threads hlds⟩
    · exact fun hargs => absurd hargs Bool.false_ne_true
  · exact absurd hmmvq hsingle

theorem wave64Launch_sound {d : KernelDescriptor} (hint : c.InInt) (hmem : d ∈ qmatmulGfx906)
    (hdtype : d.dtypeWeight = c.dtypeWeight) (hkind : (Recipe.fromImplId d.implId).kind = .mmqWave64)
    (hlo : d.mLo ≤ c.m) (hhi : c.m ≤ d.mHi)
    (hroute : c.m < 32 ∨ c.k % 128 ≠ 0 ∨ c.n % 128 ≠ 0 → simpleKernel c.dtypeWeight = none)
    (dev : Device) : c.Sound (launchAll dev [c.mmqWave64Launch (Recipe.fromImplId d.implId)]) := by
  have hgood := table_good d hmem
  have hweight := hgood.weight.trans hdtype
  have hlayout := hgood.layout
  have hmany := hgood.many hkind
  have hbatch : ¬c.Looped := by
    rintro (hfew | ⟨hsimple, hodd⟩ | ⟨hq41, hm, -⟩)
    · omega
    · exact hsimple (hroute (.inr hodd))
    · have hlds := table_tiled d hmem (.inl (hdtype.trans hq41)) (by omega)
      rw [hkind] at hlds
      exact absurd hlds (by decide)
  obtain ⟨hm, hk⟩ := hint.batch hbatch
  have htile := hgood.tile (by rw [hkind]; decide)
  rw [hkind, if_neg (by decide)] at hlayout
  apply c.one_sound (l := c.mmqWave64Launch (Recipe.fromImplId d.implId)) ⟨hgood.rows_pos, hgood.cols_pos⟩
  · refine c.wave64_tiles hint.n_lt hm hk hgood.rows_dvd hgood.cols_dvd hweight ?_ ?_ rfl rfl rfl rfl
    · change divCeil _ _ = divCeil _ (Recipe.fromImplId d.implId).stem.shape.rows
      rw [← htile]
    · change divCeil _ _ = divCeil _ (Recipe.fromImplId d.implId).stem.shape.cols
      rw [← htile]
  · exact ⟨hweight, hlayout, hgood.threads (by rw [hkind]; decide)⟩
  · exact fun hargs => absurd hargs Bool.false_ne_true

/-- The routes before the table and the alignment of its two types leave the tiled kernels an
aligned `n`. -/
theorem lds_aligned {d : KernelDescriptor} (haligned : c.TiledAligned) (hmem : d ∈ qmatmulGfx906)
    (hdtype : d.dtypeWeight = c.dtypeWeight) (hkind : (Recipe.fromImplId d.implId).kind = .mmqLdsX64)
    (hlo : d.mLo ≤ c.m) (hk128 : c.k % 128 = 0) (hact : c.actQ81Mmq ≠ 0)
    (hroute : c.m < 32 ∨ c.k % 128 ≠ 0 ∨ c.n % 128 ≠ 0 → simpleKernel c.dtypeWeight = none) :
    c.n % 128 = 0 := by
  have hmany := ((table_good d hmem).lds hkind).1
  have htypes := table_lds d hmem hkind
  rw [hdtype] at htypes
  rcases htypes with hq40 | hq41 | hq4K
  · refine Decidable.not_not.mp fun hn => ?_
    have hnone := hroute (.inr (.inr hn))
    rw [hq40] at hnone
    exact absurd hnone (Option.some_ne_none _)
  · exact haligned (.inl hq41) (by omega) hk128 hact
  · exact haligned (.inr hq4K) (by omega) hk128 hact

theorem ldsLaunch_sound {d : KernelDescriptor} (hint : c.InInt) (hmem : d ∈ qmatmulGfx906)
    (hdtype : d.dtypeWeight = c.dtypeWeight) (hkind : (Recipe.fromImplId d.implId).kind = .mmqLdsX64)
    (hlo : d.mLo ≤ c.m) (hk128 : c.k % 128 = 0) (hn128 : c.n % 128 = 0) (hact : c.actQ81Mmq ≠ 0)
    (dev : Device) :
    c.Sound (launchAll dev
      [c.mmqLdsX64Launch (Recipe.fromImplId d.implId) (blockElems c.dtypeWeight)]) := by
  have hgood := table_good d hmem
  have hweight := hgood.weight.trans hdtype
  have hlayout := hgood.layout
  obtain ⟨hmany, hthreads, hrows, -⟩ := hgood.lds hkind
  have htypes := table_lds d hmem hkind
  rw [hdtype] at htypes
  have hbatch : ¬c.Looped := by
    rintro (hfew | ⟨-, hodd⟩ | ⟨-, -, hodd⟩) <;> omega
  obtain ⟨hm, hk⟩ := hint.batch hbatch
  obtain ⟨hweights, hacts, -⟩ := hint.tiled (by omega) hk128 hn128 hact htypes
  have htile := hgood.tile (by rw [hkind]; decide)
  rw [hkind, if_pos rfl] at hlayout
  apply c.one_sound
    (l := c.mmqLdsX64Launch (Recipe.fromImplId d.implId) (blockElems c.dtypeWeight))
    ⟨hgood.rows_pos, hgood.cols_pos⟩
  · refine c.lds_tiles hint.n_lt hm hk hgood.rows_dvd hgood.cols_dvd hweight ?_ hweights hacts ?_ ?_
      rfl rfl rfl
    · change c.n % (Recipe.fromImplId d.implId).stem.shape.rows = 0
      rw [hrows]
      exact hn128
    · change divCeil _ _ = divCeil _ (Recipe.fromImplId d.implId).stem.shape.rows
      rw [← htile]
    · change divCeil _ _ = divCeil _ (Recipe.fromImplId d.implId).stem.shape.cols
      rw [← htile]
  · exact ⟨hweight, hlayout, hthreads⟩
  · exact fun _ => ⟨hk128, hn128, hact⟩

theorem runRecipe_sound (hint : c.InInt) (haligned : c.TiledAligned)
    (hroute : c.m < 32 ∨ c.k % 128 ≠ 0 ∨ c.n % 128 ≠ 0 → simpleKernel c.dtypeWeight = none)
    (h : c.tableRecipe = some r) (dev : Device) : c.Sound (c.runRecipe r dev) := by
  obtain ⟨d, hmem, rfl, hdtype, hentry⟩ := c.tableRecipe_entry h
  have hgood := table_good d hmem
  unfold runRecipe
  cases hkind : (Recipe.fromImplId d.implId).kind with
  | mmvq =>
    obtain ⟨hrows, hcols⟩ := hgood.single hkind
    have hlayout := hgood.layout
    rw [hkind, if_neg (by decide)] at hlayout
    exact c.rows_sound hint (hgood.weight.trans hdtype) hlayout (hgood.threads (by rw [hkind]; decide))
      hrows hcols hgood.rows_pos hgood.rows_dvd rfl dev
  | mmqOracle =>
    exact c.mmqLaunch_sound hint hgood hdtype (.inl hkind) hentry dev
  | mmq4Warp =>
    exact c.mmqLaunch_sound hint hgood hdtype (.inr hkind) hentry dev
  | mmqWave64 =>
    obtain ⟨hlo, hhi, -⟩ | hsingle := hentry
    · exact c.wave64Launch_sound hint hmem hdtype hkind hlo hhi hroute dev
    · rw [hkind] at hsingle
      exact absurd hsingle (by decide)
  | mmqLdsX64 =>
    obtain ⟨hlo, -, hk128⟩ | hsingle := hentry
    · have hk128 := hk128 hkind
      dsimp only
      split
      · trivial
      · rename_i hact
        rw [(hgood.lds hkind).2.2.2, hdtype]
        exact c.ldsLaunch_sound hint hmem hdtype hkind hlo hk128
          (c.lds_aligned haligned hmem hdtype hkind hlo hk128 hact hroute) hact dev
    · rw [hkind] at hsingle
      exact absurd hsingle (by decide)

/-- The three types with a single-row kernel have blocks of 32. -/
theorem simpleKernel_shape (h : simpleKernel dtype = some kernel) : blockElems dtype = 32 ∧
    kernel.shape = Kernel.mmvqShape dtype 256 1 := by
  cases dtype <;> first
    | exact absurd h (Option.some_ne_none _).symm
    | (obtain rfl := Option.some.inj h; exact ⟨rfl, rfl⟩)

theorem qmatmul_sound (hint : c.InInt) (haligned : c.TiledAligned) (dev : Device) :
    c.Sound (c.qmatmul dev) := by
  have hbatched : ∀ {dtype kernel units rowsPerBlock threads}, c.dtypeWeight = dtype →
      (∀ slots, (kernel slots).shape = Kernel.batchedShape dtype threads rowsPerBlock slots) →
      0 < rowsPerBlock → 2 ^ 31 % rowsPerBlock = 0 → units = c.k / blockElems dtype →
      c.Sound (c.batched kernel units rowsPerBlock threads dev) := by
    intro dtype kernel units rowsPerBlock threads hdtype hshape hpos hdvd hunits
    subst hdtype
    exact c.batched_sound hint (hshape c.m) hpos hdvd hunits dev
  unfold qmatmul
  by_cases hq41 : c.dtypeWeight = .q4_1 ∧ 2 ≤ c.m ∧ c.m ≤ 4
  · rw [if_pos hq41]
    exact hbatched hq41.1 (fun _ => rfl) (by decide) (by decide) rfl
  rw [if_neg hq41]
  by_cases hq80 : c.dtypeWeight = .q8_0 ∧ 2 ≤ c.m ∧ c.m ≤ 4
  · rw [if_pos hq80]
    exact hbatched hq80.1 (fun _ => rfl) (by decide) (by decide) rfl
  rw [if_neg hq80]
  by_cases hq4K : c.dtypeWeight = .q4_K ∧ 2 ≤ c.m ∧ c.m ≤ 4
  · rw [if_pos hq4K]
    exact hbatched hq4K.1 (fun _ => rfl) (by decide) (by decide) rfl
  rw [if_neg hq4K]
  by_cases hq6K : c.dtypeWeight = .q6_K ∧ 2 ≤ c.m ∧ c.m ≤ 4
  · rw [if_pos hq6K]
    exact hbatched hq6K.1 (fun _ => rfl) (by decide) (by decide) rfl
  rw [if_neg hq6K]
  cases hsimple : (if c.m < 32 ∨ c.k % 128 ≠ 0 ∨ c.n % 128 ≠ 0 then simpleKernel c.dtypeWeight
      else none) with
  | some kernel =>
    have hkernel : simpleKernel c.dtypeWeight = some kernel := by
      split at hsimple
      · exact hsimple
      · exact absurd hsimple (Option.some_ne_none kernel).symm
    obtain ⟨helems, hshape⟩ := simpleKernel_shape hkernel
    dsimp only
    by_cases hq40 : c.dtypeWeight = .q4_0 ∧ 2 ≤ c.m ∧ c.m ≤ 4
    · rw [if_pos hq40]
      exact hbatched hq40.1 (fun _ => rfl) (by decide) (by decide) rfl
    · have hblocks : c.k % 32 = 0 := by
        have hdvd := c.k_blocks
        rw [helems] at hdvd
        exact Nat.mod_eq_zero_of_dvd hdvd
      rw [if_neg hq40, if_neg (by omega)]
      refine c.rows_sound hint ?_ ?_ ?_ ?_ ?_ ?_ ?_ (by rw [helems]) dev <;> rw [hshape]
      · rfl
      · rfl
      · rfl
      · rfl
      · rfl
      · exact Nat.one_pos
      · exact Nat.mod_one _
  | none =>
    have hroute : c.m < 32 ∨ c.k % 128 ≠ 0 ∨ c.n % 128 ≠ 0 → simpleKernel c.dtypeWeight = none := by
      intro hodd
      rw [if_pos hodd] at hsimple
      exact hsimple
    dsimp only
    by_cases hq5K : c.dtypeWeight = .q5_K ∧ 2 ≤ c.m ∧ c.m ≤ 4
    · rw [if_pos hq5K]
      exact hbatched hq5K.1 (fun _ => rfl) (by decide) (by decide) rfl
    rw [if_neg hq5K]
    cases hrecipe : c.tableRecipe with
    | none => trivial
    | some r => exact c.runRecipe_sound hint haligned hroute hrecipe dev

/-- A device that takes every launch. -/
def willing : Device := ⟨fun _ => true⟩

/-- From 128 rows on the two types reach the tiled kernel whatever `n` is. -/
theorem qmatmul_tiled (htype : c.dtypeWeight = .q4_1 ∨ c.dtypeWeight = .q4_K) (hm : 128 ≤ c.m)
    (hk : c.k % 128 = 0) (hact : c.actQ81Mmq ≠ 0) :
    ∃ l, c.qmatmul willing = .launched [l] ∧ isLds l.args = true := by
  have hentry : ∃ d ∈ qmatmulGfx906, d.fits c.dtypeWeight c.m = true := by
    have hle := c.m_le
    rcases htype with h | h <;> rw [h]
    · exact ⟨⟨.q41Mmq4warpLds, .q4_1, 128, usizeMax⟩, by decide, (fits_iff _ _ _).mpr ⟨hm, hle, rfl⟩⟩
    · exact ⟨⟨.q4KMmqTurbo, .q4_K, 128, usizeMax⟩, by decide, (fits_iff _ _ _).mpr ⟨hm, hle, rfl⟩⟩
  obtain ⟨d₀, hmem₀, hfits₀⟩ := hentry
  obtain ⟨d, hd⟩ := dispatch_some hmem₀ hfits₀
  obtain ⟨hmem, hfits⟩ := dispatch_mem hd
  obtain ⟨hlo, hhi, hdtype⟩ := (fits_iff d _ _).mp hfits
  have hkind := table_tiled d hmem (by rw [hdtype]; exact htype) (by omega)
  obtain ⟨-, -, -, helems⟩ := (table_good d hmem).lds hkind
  have hrecipe : c.tableRecipe = some (Recipe.fromImplId d.implId) := by
    unfold tableRecipe
    rw [hd]
    dsimp only
    rw [if_neg fun h => h.2 hk]
  have hsimple : simpleKernel c.dtypeWeight = none := by
    rcases htype with h | h <;> rw [h] <;> rfl
  have hq5K : c.dtypeWeight ≠ .q5_K := by
    rcases htype with h | h <;> rw [h] <;> decide
  refine ⟨c.mmqLdsX64Launch (Recipe.fromImplId d.implId) (blockElems d.dtypeWeight), ?_, rfl⟩
  unfold qmatmul
  rw [if_neg (by omega), if_neg (by omega), if_neg (by omega), if_neg (by omega), hsimple, ite_self]
  dsimp only
  rw [if_neg (by omega), hrecipe]
  dsimp only
  unfold runRecipe
  rw [hkind]
  dsimp only
  rw [if_neg hact, helems]
  rfl

/-- In the kernels' `int` range dispatch is sound exactly when the tiled kernel of the table's
two types has an aligned `n`. -/
theorem dispatch_sound_iff (hint : c.InInt) :
    (∀ dev, c.Sound (c.qmatmul dev)) ↔ c.TiledAligned := by
  constructor
  · intro hsound htype hm hk hact
    obtain ⟨l, hlaunch, hargs⟩ := c.qmatmul_tiled htype hm hk hact
    have hwilling := hsound willing
    rw [hlaunch] at hwilling
    exact (hwilling.2.2 l (List.mem_singleton.mpr rfl) hargs).2.1
  · exact fun haligned dev => c.qmatmul_sound hint haligned dev

end QmatmulCall

/-- A gate projection of a rank: `n` is half of 2112. -/
def gateCall : QmatmulCall where
  dtypeWeight := .q4_1
  m := 128
  k := 2816
  n := 1056
  actQ81Mmq := 4096
  m_pos := by decide
  n_pos := by decide
  m_le := by decide
  k_blocks := by decide

/-- The tiled kernel runs although `n` is not aligned, and output `(1, 0)` is stored twice, once
from a weight row past the end. -/
theorem gate_stored_twice : ∃ l : Launch,
    gateCall.qmatmul QmatmulCall.willing = .launched [l] ∧ QmatmulCall.isLds l.args = true ∧
      gateCall.n % 128 = 32 ∧ l.storeAt 0 0 0 1 = some (gateCall.output .q8_1Mmq 1 0) ∧
      l.storeAt 8 0 32 0 = some ⟨(gateCall.output .q8_1Mmq 1 0).dst, 1056 * 88, 88, 0, 128⟩ :=
  ⟨gateCall.mmqLdsX64Launch (Recipe.fromImplId .q41Mmq4warpLds) 32, by decide +kernel,
    by decide, by decide, by decide +kernel, by decide +kernel⟩

/-- An aligned call of the `Q4_K` tiled kernel. -/
def alignedCall : QmatmulCall where
  dtypeWeight := .q4_K
  m := 128
  k := 256
  n := 128
  actQ81Mmq := 4096
  m_pos := by decide
  n_pos := by decide
  m_le := by decide
  k_blocks := by decide

theorem aligned_call_sound :
    alignedCall.InInt ∧ ∀ dev, alignedCall.Sound (alignedCall.qmatmul dev) := by
  have hint : alignedCall.InInt :=
    ⟨by decide, by decide, fun _ => ⟨by decide, by decide⟩,
      fun _ _ _ _ _ => ⟨by decide, by decide, fun _ => by decide⟩⟩
  exact ⟨hint, (alignedCall.dispatch_sound_iff hint).mpr fun _ _ _ _ => rfl⟩

end Flambeau.Ops
