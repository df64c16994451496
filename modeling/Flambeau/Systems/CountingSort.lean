import Mathlib

namespace Flambeau.Systems

/-- The sum of the sizes before `e`. -/
def below (size : Nat → Nat) : Nat → Nat
  | 0 => 0
  | e + 1 => below size e + size e

/-- How many of the first `n` keys are `e`. -/
def keyRank (keys : Nat → Nat) (e : Nat) : Nat → Nat
  | 0 => 0
  | n + 1 => keyRank keys e n + if keys n = e then 1 else 0

/-- Where a stable scatter puts item `i`. -/
def place (start keys : Nat → Nat) (i : Nat) : Nat := start (keys i) + keyRank keys (keys i) i

/-- `mem[p] = v`. -/
def writeAt (mem : Nat → α) (p : Nat) (v : α) : Nat → α := fun q => if q = p then v else mem q

/-- One step of a scatter: the item goes where its key's cursor is. -/
def scatterStep (keys : Nat → Nat) (value : Nat → α) (s : (Nat → Nat) × (Nat → α)) (i : Nat) :
    (Nat → Nat) × (Nat → α) :=
  (writeAt s.1 (keys i) (s.1 (keys i) + 1), writeAt s.2 (s.1 (keys i)) (value i))

/-- The first `n` items scattered from the cursors `start`. -/
def scatter (keys : Nat → Nat) (value : Nat → α) (start : Nat → Nat) (mem : Nat → α) (n : Nat) :
    (Nat → Nat) × (Nat → α) :=
  (List.range n).foldl (scatterStep keys value) (start, mem)

/-- Writes of a kernel's threads, one after the other. -/
def writeAll (mem : Nat → α) (writes : List (Nat × α)) : Nat → α :=
  writes.foldl (fun mem w => writeAt mem w.1 w.2) mem

/-- One round of a scan in which every thread adds what is `offset` before it. -/
def scanRound (s : Nat → Nat) (offset : Nat) : Nat → Nat :=
  fun t => s t + if offset ≤ t then s (t - offset) else 0

/-- The rounds with offsets 1, 2, 4 up to `2 ^ (rounds - 1)`. -/
def scanRounds (v : Nat → Nat) (rounds : Nat) : Nat → Nat :=
  (List.range rounds).foldl (fun s k => scanRound s (2 ^ k)) v

@[simp] theorem writeAt_same (mem : Nat → α) (p : Nat) (v : α) : writeAt mem p v p = v := if_pos rfl

theorem writeAt_other (mem : Nat → α) (v : α) (h : q ≠ p) : writeAt mem p v q = mem q := if_neg h

theorem below_mono (size : Nat → Nat) (h : a ≤ b) : below size a ≤ below size b := by
  induction h with
  | refl => exact Nat.le_refl _
  | step _ ih => exact Nat.le_trans ih (Nat.le_add_right _ _)

theorem below_congr (h : ∀ i < e, size i = size' i) : below size e = below size' e := by
  induction e with
  | zero => rfl
  | succ e ih =>
    unfold below
    rw [ih fun i hi => h i (by omega), h e (by omega)]

theorem below_mul (size : Nat → Nat) (m e : Nat) :
    below (fun i => size i * m) e = below size e * m := by
  induction e with
  | zero => exact (Nat.zero_mul m).symm
  | succ e ih => rw [below, ih, below, Nat.add_mul]

/-- Every place before the end is in the range of one index. -/
theorem exists_range (size : Nat → Nat) (h : p < below size k) :
    ∃ e < k, below size e ≤ p ∧ p < below size (e + 1) := by
  induction k with
  | zero => exact absurd h (Nat.not_lt_zero _)
  | succ k ih =>
    by_cases hp : p < below size k
    · obtain ⟨e, he, hrange⟩ := ih hp
      exact ⟨e, by omega, hrange⟩
    · exact ⟨k, by omega, by omega, h⟩

theorem range_unique (size : Nat → Nat) (hlo : below size a ≤ p) (hhi : p < below size (a + 1))
    (hlo' : below size b ≤ p) (hhi' : p < below size (b + 1)) : a = b := by
  rcases Nat.lt_trichotomy a b with hlt | heq | hgt
  · have hmono := below_mono size (show a + 1 ≤ b from hlt)
    omega
  · exact heq
  · have hmono := below_mono size (show b + 1 ≤ a from hgt)
    omega

theorem keyRank_mono (keys : Nat → Nat) (e : Nat) (h : a ≤ b) : keyRank keys e a ≤ keyRank keys e b := by
  induction h with
  | refl => exact Nat.le_refl _
  | step _ ih => exact Nat.le_trans ih (Nat.le_add_right _ _)

theorem keyRank_self (keys : Nat → Nat) (i : Nat) :
    keyRank keys (keys i) (i + 1) = keyRank keys (keys i) i + 1 := by
  rw [keyRank, if_pos rfl]

/-- The item of a given rank under its key. -/
theorem exists_rank (keys : Nat → Nat) (h : r < keyRank keys e n) :
    ∃ i < n, keys i = e ∧ keyRank keys e i = r := by
  induction n with
  | zero => exact absurd h (Nat.not_lt_zero _)
  | succ n ih =>
    by_cases hr : r < keyRank keys e n
    · obtain ⟨i, hi, hrank⟩ := ih hr
      exact ⟨i, by omega, hrank⟩
    · unfold keyRank at h
      by_cases hkey : keys n = e
      · rw [if_pos hkey] at h
        exact ⟨n, by omega, hkey, by omega⟩
      · rw [if_neg hkey] at h
        omega

theorem below_add (f g : Nat → Nat) (k : Nat) :
    below (fun e => f e + g e) k = below f k + below g k := by
  induction k with
  | zero => rfl
  | succ k ih =>
    rw [below, ih, below, below]
    omega

theorem below_single (a k : Nat) : below (fun e => if a = e then 1 else 0) k = if a < k then 1 else 0 := by
  induction k with
  | zero => rfl
  | succ k ih =>
    rw [below, ih]
    by_cases hlt : a < k
    · rw [if_pos hlt, if_neg (by omega), if_pos (by omega)]
    · by_cases heq : a = k
      · rw [if_neg hlt, if_pos heq, if_pos (by omega)]
      · rw [if_neg hlt, if_neg heq, if_neg (by omega)]

/-- The counts of the keys before `k` add up to the number of items with such a key. -/
theorem below_keyRank (keys : Nat → Nat) (n k : Nat) :
    below (fun e => keyRank keys e n) k = (List.range n).countP (keys · < k) := by
  induction n with
  | zero =>
    have hzero : below (fun _ => 0 * 0) k = below (fun _ => 0) k * 0 := below_mul (fun _ => 0) 0 k
    exact hzero
  | succ n ih =>
    have hsplit : below (fun e => keyRank keys e (n + 1)) k =
        below (fun e => keyRank keys e n) k + below (fun e => if keys n = e then 1 else 0) k :=
      below_add _ _ k
    rw [hsplit, ih, below_single, List.range_succ, List.countP_append, List.countP_singleton]
    simp

theorem below_keyRank_all (hkeys : ∀ i < n, keys i < k) :
    below (fun e => keyRank keys e n) k = n := by
  rw [below_keyRank, List.countP_eq_length.mpr, List.length_range]
  intro i hi
  exact decide_eq_true (hkeys i (List.mem_range.mp hi))

theorem rank_lt (hi : i < n) : keyRank keys (keys i) i < keyRank keys (keys i) n := by
  have hself := keyRank_self keys i
  have hmono := keyRank_mono keys (keys i) (show i + 1 ≤ n from hi)
  omega

section Placed

variable {size keys : Nat → Nat} {n k : Nat} (hroom : ∀ e < k, keyRank keys e n ≤ size e)
  (hkeys : ∀ i < n, keys i < k)

include hroom hkeys

theorem place_range (hi : i < n) : below size (keys i) ≤ place (below size) keys i ∧
    place (below size) keys i < below size (keys i + 1) := by
  have hrank : keyRank keys (keys i) i < keyRank keys (keys i) n := rank_lt hi
  have hfit := hroom (keys i) (hkeys i hi)
  unfold place
  rw [below]
  omega

theorem place_lt (hi : i < n) : place (below size) keys i < below size k := by
  have hrange := place_range hroom hkeys hi
  have hmono := below_mono size (show keys i + 1 ≤ k from hkeys i hi)
  omega

/-- The places are ordered by key, then by item. -/
theorem place_lt_iff (hi : i < n) (hj : j < n) :
    place (below size) keys i < place (below size) keys j ↔
      keys i < keys j ∨ keys i = keys j ∧ i < j := by
  have hranged := place_range hroom hkeys hi
  have hrangedj := place_range hroom hkeys hj
  rcases Nat.lt_trichotomy (keys i) (keys j) with hlt | heq | hgt
  · have hmono := below_mono size (show keys i + 1 ≤ keys j from hlt)
    exact iff_of_true (by omega) (.inl hlt)
  · have hplaces : place (below size) keys i < place (below size) keys j ↔
        keyRank keys (keys j) i < keyRank keys (keys j) j := by
      unfold place
      rw [heq]
      omega
    rw [hplaces]
    constructor
    · intro h
      refine .inr ⟨heq, Nat.lt_of_not_le fun hle => ?_⟩
      have hmono := keyRank_mono keys (keys j) hle
      omega
    · rintro (hlt | ⟨-, hlt⟩)
      · omega
      · rw [← heq]
        exact rank_lt hlt
  · have hmono := below_mono size (show keys j + 1 ≤ keys i from hgt)
    refine iff_of_false (by omega) ?_
    rintro (hlt | ⟨heq, -⟩) <;> omega

theorem place_inj (hi : i < n) (hj : j < n)
    (h : place (below size) keys i = place (below size) keys j) : i = j := by
  have hforth := place_lt_iff hroom hkeys hi hj
  have hback := place_lt_iff hroom hkeys hj hi
  rcases Nat.lt_trichotomy i j with hlt | heq | hgt
  · by_cases hkey : keys i = keys j
    · exact absurd (hforth.mpr (.inr ⟨hkey, hlt⟩)) (by omega)
    · rcases Nat.lt_or_gt_of_ne hkey with hless | hmore
      · exact absurd (hforth.mpr (.inl hless)) (by omega)
      · exact absurd (hback.mpr (.inl hmore)) (by omega)
  · exact heq
  · by_cases hkey : keys j = keys i
    · exact absurd (hback.mpr (.inr ⟨hkey, hgt⟩)) (by omega)
    · rcases Nat.lt_or_gt_of_ne hkey with hless | hmore
      · exact absurd (hback.mpr (.inl hless)) (by omega)
      · exact absurd (hforth.mpr (.inl hmore)) (by omega)

/-- A scatter puts every item in its place and leaves the other places alone. -/
theorem scatter_spec (value : Nat → α) (mem : Nat → α) {start : Nat → Nat}
    (hstart : ∀ i < n, start (keys i) = below size (keys i)) (hm : m ≤ n) :
    (∀ i < n, (scatter keys value start mem m).1 (keys i) =
        below size (keys i) + keyRank keys (keys i) m) ∧
      (∀ i < m, (scatter keys value start mem m).2 (place (below size) keys i) = value i) ∧
      ∀ p, (∀ i < m, p ≠ place (below size) keys i) →
        (scatter keys value start mem m).2 p = mem p := by
  induction m with
  | zero => exact ⟨hstart, fun i hi => absurd hi (Nat.not_lt_zero i), fun _ _ => rfl⟩
  | succ m ih =>
    obtain ⟨hcursors, hplaced, hothers⟩ := ih (by omega)
    have hstep : scatter keys value start mem (m + 1) =
        scatterStep keys value (scatter keys value start mem m) m := by
      unfold scatter
      rw [List.range_succ, List.foldl_append]
      rfl
    have hat : (scatter keys value start mem m).1 (keys m) = place (below size) keys m :=
      hcursors m (by omega)
    rw [hstep]
    refine ⟨fun i hi => ?_, fun i hi => ?_, fun p hp => ?_⟩
    · change writeAt _ _ _ (keys i) = _
      by_cases he : keys i = keys m
      · rw [he, writeAt_same, hcursors m (by omega), keyRank_self]
        omega
      · rw [writeAt_other _ _ he, hcursors i hi, keyRank, if_neg (fun h => he h.symm), Nat.add_zero]
    · change writeAt _ _ _ _ = _
      rw [hat]
      by_cases hlast : i = m
      · rw [hlast, writeAt_same]
      · rw [writeAt_other]
        · exact hplaced i (by omega)
        · exact fun h => hlast (place_inj hroom hkeys (by omega) (by omega) h)
    · change writeAt _ _ _ _ = _
      rw [hat, writeAt_other _ _ (hp m (by omega))]
      exact hothers p fun i hi => hp i (by omega)

end Placed

/-- Exact room is used up: every place has an item. -/
theorem place_onto (hexact : ∀ e < k, size e = keyRank keys e n) (hp : p < below size k) :
    ∃ i < n, place (below size) keys i = p := by
  obtain ⟨e, he, hlo, hhi⟩ := exists_range size hp
  rw [below, hexact e he] at hhi
  obtain ⟨i, hi, hkey, hrank⟩ := exists_rank keys (show p - below size e < keyRank keys e n by omega)
  refine ⟨i, hi, ?_⟩
  unfold place
  rw [hkey, hrank]
  omega

/-- One added for each key of a list. -/
def histogram (keys : Nat → Nat) (counts : Nat → Nat) (order : List Nat) : Nat → Nat :=
  order.foldl (fun counts i => writeAt counts (keys i) (counts (keys i) + 1)) counts

/-- The order of the additions does not matter. -/
theorem histogram_eq (keys : Nat → Nat) (counts : Nat → Nat) (order : List Nat) (e : Nat) :
    histogram keys counts order e = counts e + order.countP (keys · = e) := by
  induction order generalizing counts with
  | nil => rfl
  | cons i rest ih =>
    change histogram keys (writeAt counts (keys i) (counts (keys i) + 1)) rest e = _
    rw [ih, List.countP_cons]
    by_cases he : e = keys i
    · subst he
      rw [writeAt_same]
      simp
      omega
    · rw [writeAt_other _ _ he, if_neg (by simpa using fun h : keys i = e => he h.symm)]
      rfl

theorem countP_range (keys : Nat → Nat) (e n : Nat) :
    (List.range n).countP (keys · = e) = keyRank keys e n := by
  induction n with
  | zero => rfl
  | succ n ih =>
    rw [List.range_succ, List.countP_append, ih, keyRank, List.countP_singleton]
    simp

/-- Threads past the end count nothing, and the order of the others does not matter. -/
theorem countP_threads (keys : Nat → Nat) (e : Nat) {order : List Nat}
    (hperm : order.Perm (List.range g)) (h : n ≤ g) :
    (order.filter (· < n)).countP (keys · = e) = keyRank keys e n := by
  have hinside : (List.range g).filter (· < n) = List.range n := by
    rw [show g = n + (g - n) by omega, List.range_add, List.filter_append]
    have hkept : (List.range n).filter (· < n) = List.range n := by
      rw [List.filter_eq_self]
      intro i hi
      exact decide_eq_true (List.mem_range.mp hi)
    have hdropped : ((List.range (g - n)).map (n + ·)).filter (· < n) = [] := by
      rw [List.filter_eq_nil_iff]
      intro i hi
      obtain ⟨j, -, rfl⟩ := List.mem_map.mp hi
      simp
    rw [hkept, hdropped, List.append_nil]
  rw [(hperm.filter _).countP_eq, hinside, countP_range]

/-- When writes to one place agree, the order of the writes does not matter. -/
theorem writeAll_spec (mem : Nat → α) {writes : List (Nat × α)}
    (hagree : ∀ w ∈ writes, ∀ w' ∈ writes, w.1 = w'.1 → w.2 = w'.2) :
    ∀ w ∈ writes, writeAll mem writes w.1 = w.2 := by
  have hkeep : ∀ (writes : List (Nat × α)) (mem : Nat → α) (p : Nat) (v : α),
      (∀ w ∈ writes, w.1 = p → w.2 = v) → mem p = v → writeAll mem writes p = v := by
    intro writes
    induction writes with
    | nil => exact fun mem p v _ h => h
    | cons w rest ih =>
      intro mem p v hvalues hmem
      refine ih (writeAt mem w.1 w.2) p v (fun w' hw' => hvalues w' (List.mem_cons_of_mem _ hw')) ?_
      by_cases hp : p = w.1
      · rw [hp, writeAt_same]
        exact hvalues w (List.mem_cons_self ..) hp.symm
      · rw [writeAt_other _ _ hp]
        exact hmem
  induction writes generalizing mem with
  | nil => exact fun w hw => absurd hw List.not_mem_nil
  | cons first rest ih =>
    intro w hw
    have hrest : ∀ w ∈ rest, ∀ w' ∈ rest, w.1 = w'.1 → w.2 = w'.2 := fun w hw w' hw' =>
      hagree w (List.mem_cons_of_mem _ hw) w' (List.mem_cons_of_mem _ hw')
    rcases List.mem_cons.mp hw with rfl | hw
    · refine hkeep rest _ w.1 w.2 (fun w' hw' hp => ?_) (writeAt_same _ _ _)
      exact hagree w' (List.mem_cons_of_mem _ hw') w (List.mem_cons_self ..) hp
    · exact ih _ hrest w hw

/-- After the rounds each thread has the sum of the last `2 ^ rounds` values. -/
theorem scanRounds_eq (v : Nat → Nat) (rounds t : Nat) :
    scanRounds v rounds t + below v (t + 1 - 2 ^ rounds) = below v (t + 1) := by
  induction rounds generalizing t with
  | zero =>
    have hlast : t + 1 - 2 ^ 0 = t := by omega
    rw [hlast, below]
    exact Nat.add_comm _ _
  | succ k ih =>
    have hstep : scanRounds v (k + 1) = scanRound (scanRounds v k) (2 ^ k) := by
      unfold scanRounds
      rw [List.range_succ, List.foldl_append]
      rfl
    have hself := ih t
    rw [hstep, scanRound, Nat.pow_succ]
    by_cases hle : 2 ^ k ≤ t
    · have hbefore := ih (t - 2 ^ k)
      rw [if_pos hle]
      rw [show t - 2 ^ k + 1 = t + 1 - 2 ^ k by omega,
        show t + 1 - 2 ^ k - 2 ^ k = t + 1 - 2 ^ k * 2 by omega] at hbefore
      omega
    · rw [if_neg hle, show t + 1 - 2 ^ k * 2 = 0 by omega]
      rw [show t + 1 - 2 ^ k = 0 by omega] at hself
      omega

/-- With enough rounds that is the sum of all values up to it. -/
theorem scanRounds_all (v : Nat → Nat) (h : t < 2 ^ rounds) :
    scanRounds v rounds t = below v (t + 1) := by
  have hsum := scanRounds_eq v rounds t
  rw [show t + 1 - 2 ^ rounds = 0 by omega] at hsum
  exact hsum

/-- Runs of equal numbers, one after the other. -/
theorem replicate_runs (c : Nat → Nat) (k : Nat) :
    ((List.range k).flatMap fun e => List.replicate (c e) e).length = below c k ∧
      ∀ e < k, ∀ g, below c e ≤ g → g < below c (e + 1) →
        ((List.range k).flatMap fun e => List.replicate (c e) e)[g]? = some e := by
  induction k with
  | zero => exact ⟨rfl, fun e he => absurd he (Nat.not_lt_zero e)⟩
  | succ k ih =>
    obtain ⟨hlen, hget⟩ := ih
    have hsplit : ((List.range (k + 1)).flatMap fun e => List.replicate (c e) e) =
        ((List.range k).flatMap fun e => List.replicate (c e) e) ++ List.replicate (c k) k := by
      rw [List.range_succ, List.flatMap_append, List.flatMap_singleton]
    rw [hsplit]
    refine ⟨by rw [List.length_append, hlen, List.length_replicate, below], ?_⟩
    intro e he g hlo hhi
    by_cases hlast : e = k
    · subst hlast
      rw [List.getElem?_append_right (by omega), List.getElem?_replicate, if_pos]
      rw [below] at hhi
      omega
    · have hmono := below_mono c (show e + 1 ≤ k by omega)
      rw [List.getElem?_append_left (by omega)]
      exact hget e (by omega) g hlo hhi

theorem replicate_runs_sorted (c : Nat → Nat) (k : Nat) :
    ((List.range k).flatMap fun e => List.replicate (c e) e).Pairwise (· ≤ ·) := by
  induction k with
  | zero => exact List.Pairwise.nil
  | succ k ih =>
    rw [List.range_succ, List.flatMap_append, List.flatMap_singleton, List.pairwise_append]
    refine ⟨ih, List.pairwise_replicate.mpr (.inr (Nat.le_refl k)), ?_⟩
    intro a ha b hb
    obtain ⟨e, he, hae⟩ := List.mem_flatMap.mp ha
    rw [List.eq_of_mem_replicate hae, List.eq_of_mem_replicate hb]
    exact Nat.le_of_lt (List.mem_range.mp he)

end Flambeau.Systems
