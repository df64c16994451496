namespace Flambeau.Server

/-- What a row of the KV cache was computed from, and the request it was written
for. -/
structure Row where
  request : Nat
  token : Nat
deriving DecidableEq

/-- A slot of a layer's KV cache. A request finds the rows of the requests before
it: a reset clears the recurrent state only. -/
structure Slot where
  rows : Nat → Option Row
  /-- The tokens fed or restored since the reset, each with its position. -/
  fed : List (Nat × Nat)
  /-- The rows attention has read since the reset. -/
  read : List (Option Row)

/-- The rows attention reads for a token: `n_tokens_kv` is the position plus one,
and a sliding window keeps the last ones only. -/
def attnRows (window position : Nat) : List Nat :=
  let nTokensKv := position + 1
  if 0 < window ∧ window < nTokensKv then List.range' (nTokensKv - window) window
  else List.range nTokensKv

namespace Slot

def reset (s : Slot) : Slot := ⟨s.rows, [], []⟩

/-- Append the pairs' rows. -/
def write (request : Nat) (s : Slot) (pairs : List (Nat × Nat)) : Nat → Option Row := fun p =>
  match pairs.find? fun q => q.2 == p with
  | some q => some ⟨request, q.1⟩
  | none => s.rows p

/-- Every row is appended before attention runs. -/
def feed (request window : Nat) (s : Slot) (pairs : List (Nat × Nat)) : Slot where
  rows := s.write request pairs
  fed := s.fed ++ pairs
  read := s.read ++ pairs.flatMap fun q => (attnRows window q.2).map (s.write request pairs)

/-- `restore_kv_slot`: the rows of a cached prefix, with no forward. -/
def restore (request : Nat) (s : Slot) (pairs : List (Nat × Nat)) : Slot where
  rows := s.write request pairs
  fed := s.fed ++ pairs
  read := s.read

end Slot

/-- `(0..len).map(|k| start + k)`. -/
def positions (start len : Nat) : List Nat := (List.range len).map fun k => start + k

theorem zip_positions (tokens : List Nat) (start : Nat) :
    tokens.zip (positions start tokens.length) = tokens.zipIdx start := by
  induction tokens generalizing start with
  | nil => rfl
  | cons t tokens ih =>
    have hshift : positions start (tokens.length + 1) = start :: positions (start + 1) tokens.length := by
      simp only [positions, List.range_succ_eq_map, List.map_cons, List.map_map, Nat.add_zero,
        List.cons.injEq, true_and]
      apply List.map_congr_left
      intro k _
      simp only [Function.comp_apply]
      omega
    rw [List.length_cons, hshift, List.zip_cons_cons, List.zipIdx_cons, ih]

theorem attnRows_le (h : i ∈ attnRows window position) : i ≤ position := by
  unfold attnRows at h
  simp only at h
  split at h
  · obtain ⟨k, hk, rfl⟩ := List.mem_range'.mp h
    omega
  · have hlt := List.mem_range.mp h
    omega

theorem write_cons (request : Nat) (s : Slot) (t : Nat) (tokens : List Nat) (start p : Nat) :
    s.write request ((t :: tokens).zipIdx start) p =
      if p = start then some ⟨request, t⟩ else s.write request (tokens.zipIdx (start + 1)) p := by
  unfold Slot.write
  rw [List.zipIdx_cons, List.find?_cons]
  by_cases hp : p = start
  · subst hp
    simp
  · have hne : (start == p) = false := by
      rw [beq_eq_false_iff_ne]
      omega
    simp only [hne, if_neg hp]

/-- A row of a run of tokens holds the token of its position. -/
theorem write_inside (request : Nat) (s : Slot) {tokens : List Nat} (start : Nat)
    (h : tokens[i]? = some t) :
    s.write request (tokens.zipIdx start) (start + i) = some ⟨request, t⟩ := by
  induction tokens generalizing start i with
  | nil => cases h
  | cons u tokens ih =>
    rw [write_cons]
    cases i with
    | zero =>
      cases h
      simp
    | succ i =>
      have hi : tokens[i]? = some t := h
      have hstep : start + (i + 1) = start + 1 + i := by omega
      rw [if_neg (by omega), hstep]
      exact ih (start + 1) hi

theorem write_before (request : Nat) (s : Slot) (tokens : List Nat) (h : p < start) :
    s.write request (tokens.zipIdx start) p = s.rows p := by
  induction tokens generalizing start with
  | nil => rfl
  | cons u tokens ih =>
    rw [write_cons, if_neg (by omega)]
    exact ih (by omega)

end Flambeau.Server
