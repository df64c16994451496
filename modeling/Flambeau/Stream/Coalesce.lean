namespace Flambeau.Stream

/-- Events of which some neighbours may be run together. -/
structure Merger (E : Type) where
  merge : E → E → Option E
  assoc : merge a b = some ab → merge b c = some bc → ∃ abc, merge ab c = some abc ∧ merge a bc = some abc
  apart : merge a b = none → merge b c = some bc → merge a bc = none

namespace Merger

variable (M : Merger E)

/-- The events after `last`, which is still open to merging. -/
def onto (last : E) : List E → List E
  | [] => [last]
  | e :: es =>
    match M.merge last e with
    | some both => onto both es
    | none => last :: onto e es

/-- Neighbours run together as far as they merge. -/
def coalesce : List E → List E
  | [] => []
  | e :: es => M.onto e es

variable {M}

theorem onto_merge (h : M.merge a b = some ab) (es : List E) : M.onto a (b :: es) = M.onto ab es := by
  simp [onto, h]

theorem onto_apart (h : M.merge a b = none) (es : List E) :
    M.onto a (b :: es) = a :: M.onto b es := by
  simp [onto, h]

/-- What comes after may be run together first. -/
theorem onto_onto (a b : E) (es : List E) : M.onto a (M.onto b es) = M.onto a (b :: es) := by
  induction es generalizing a b with
  | nil => rfl
  | cons c es ih =>
    cases hbc : M.merge b c with
    | some bc =>
      rw [onto_merge hbc, ih]
      cases hab : M.merge a b with
      | some ab =>
        obtain ⟨abc, hleft, hright⟩ := M.assoc hab hbc
        rw [onto_merge hab, onto_merge hleft, onto_merge hright]
      | none => rw [onto_apart hab, onto_apart (M.apart hab hbc), onto_merge hbc]
    | none =>
      rw [onto_apart hbc]
      cases hab : M.merge a b with
      | some ab => rw [onto_merge hab, onto_merge hab, ih]
      | none => rw [onto_apart hab, onto_apart hab, ih]

theorem onto_append (a : E) (es fs : List E) :
    M.onto a (es ++ M.coalesce fs) = M.onto a (es ++ fs) := by
  induction es generalizing a with
  | nil =>
    cases fs with
    | nil => rfl
    | cons f fs => exact onto_onto a f fs
  | cons e es ih =>
    rw [List.cons_append, List.cons_append]
    cases h : M.merge a e with
    | some ae => rw [onto_merge h, onto_merge h, ih]
    | none => rw [onto_apart h, onto_apart h, ih]

/-- Events that coalesce alike do so after any others. -/
theorem coalesce_congr (es : List E) (h : M.coalesce fs = M.coalesce gs) :
    M.coalesce (es ++ fs) = M.coalesce (es ++ gs) := by
  cases es with
  | nil => exact h
  | cons e es =>
    have hf := onto_append (M := M) e es fs
    have hg := onto_append (M := M) e es gs
    rw [h, hg] at hf
    exact hf.symm

/-- What merging adds up is what coalescing keeps. -/
theorem flatMap_coalesce {weight : E → List A}
    (hw : ∀ a b ab, M.merge a b = some ab → weight ab = weight a ++ weight b) (es : List E) :
    (M.coalesce es).flatMap weight = es.flatMap weight := by
  have honto : ∀ a fs, (M.onto a fs).flatMap weight = weight a ++ fs.flatMap weight := by
    intro a fs
    induction fs generalizing a with
    | nil => simp [onto]
    | cons b fs ih =>
      rw [List.flatMap_cons]
      cases h : M.merge a b with
      | some ab => rw [onto_merge h, ih, hw a b ab h, List.append_assoc]
      | none => rw [onto_apart h, List.flatMap_cons, ih]
  cases es with
  | nil => rfl
  | cons e es =>
    rw [List.flatMap_cons]
    exact honto e es

/-- A fold that does the same with two events as with their merger. -/
theorem foldl_coalesce {f : S → E → S} (hf : ∀ s a b ab, M.merge a b = some ab → f s ab = f (f s a) b) (s : S)
    (es : List E) : (M.coalesce es).foldl f s = es.foldl f s := by
  have honto : ∀ s a fs, (M.onto a fs).foldl f s = (a :: fs).foldl f s := by
    intro s a fs
    induction fs generalizing s a with
    | nil => rfl
    | cons b fs ih =>
      cases h : M.merge a b with
      | some ab => rw [onto_merge h, ih, List.foldl_cons, hf s a b ab h, List.foldl_cons, List.foldl_cons]
      | none =>
        rw [onto_apart h, List.foldl_cons, ih]
        rfl
  cases es with
  | nil => rfl
  | cons e es => exact honto s e es

end Merger
end Flambeau.Stream
