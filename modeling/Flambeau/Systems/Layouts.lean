import Mathlib.Data.List.Forall2

namespace Flambeau.Systems

/-- What a reader gives: a value and the rest of the input, an error it reports, or a fault
that ends the program. -/
inductive Outcome (ε φ α : Type) where
  | ok (a : α)
  | err (e : ε)
  | fault (f : φ)
deriving DecidableEq

namespace Outcome

def bind (x : Outcome ε φ α) (f : α → Outcome ε φ γ) : Outcome ε φ γ :=
  match x with
  | ok a => f a
  | err e => err e
  | fault p => fault p

instance : Monad (Outcome ε φ) where
  pure := ok
  bind := bind

/-- Errors and faults passed on under another name. -/
def relabel (f : ε → ε') (g : φ → φ') : Outcome ε φ α → Outcome ε' φ' α
  | ok a => ok a
  | err e => err (f e)
  | fault p => fault (g p)

theorem bind_eq_ok {x : Outcome ε φ α} {f : α → Outcome ε φ γ} {c : γ} :
    (x >>= f) = ok c ↔ ∃ a, x = ok a ∧ f a = ok c := by
  cases x with
  | ok a => exact ⟨fun h => ⟨a, rfl, h⟩, fun ⟨b, hb, h⟩ => by cases hb; exact h⟩
  | err e => exact ⟨nofun, fun ⟨b, hb, _⟩ => nomatch hb⟩
  | fault p => exact ⟨nofun, fun ⟨b, hb, _⟩ => nomatch hb⟩

theorem relabel_eq_ok {f : ε → ε'} {g : φ → φ'} {x : Outcome ε φ α} : x.relabel f g = ok a ↔ x = ok a := by
  cases x with
  | ok b => exact ⟨fun h => by cases h; rfl, fun h => by cases h; rfl⟩
  | err e => exact ⟨nofun, nofun⟩
  | fault p => exact ⟨nofun, nofun⟩

/-- The outputs of a loop, one after the other; it stops at the first that is none. -/
def extendAll (part : ι → Outcome ε φ (List β)) : List ι → Outcome ε φ (List β)
  | [] => ok []
  | i :: is => do
    let front ← part i
    let back ← extendAll part is
    ok (front ++ back)

/-- A loop that ends has the output of each round. -/
theorem extendAll_ok {part : ι → Outcome ε φ (List β)} {is : List ι} {out : List β} (h : extendAll part is = ok out) :
    (∀ i ∈ is, ∃ xs, part i = ok xs) ∧
      ∀ f : ι → List β, (∀ i ∈ is, ∀ xs, part i = ok xs → xs = f i) → out = is.flatMap f := by
  induction is generalizing out with
  | nil =>
    cases h
    exact ⟨nofun, fun _ _ => rfl⟩
  | cons i is ih =>
    obtain ⟨front, hfront, hrest⟩ := bind_eq_ok.mp h
    obtain ⟨back, hback, hout⟩ := bind_eq_ok.mp hrest
    obtain ⟨hparts, hsame⟩ := ih hback
    cases hout
    refine ⟨fun j hj => ?_, fun f hf => ?_⟩
    · rcases List.mem_cons.mp hj with rfl | hj
      · exact ⟨front, hfront⟩
      · exact hparts j hj
    · rw [List.flatMap_cons, ← hf i List.mem_cons_self front hfront,
        ← hsame f fun j hj => hf j (List.mem_cons_of_mem _ hj)]

end Outcome

/-- A reader over a list of symbols. -/
def Reader (β ε φ α : Type) := List β → Outcome ε φ (α × List β)

namespace Reader

def pure (a : α) : Reader β ε φ α := fun input => .ok (a, input)

def bind (p : Reader β ε φ α) (f : α → Reader β ε φ γ) : Reader β ε φ γ := fun input =>
  match p input with
  | .ok (a, rest) => f a rest
  | .err e => .err e
  | .fault f => .fault f

instance : Monad (Reader β ε φ) where
  pure := Reader.pure
  bind := Reader.bind

def throw (e : ε) : Reader β ε φ α := fun _ => .err e

def crash (f : φ) : Reader β ε φ α := fun _ => .fault f

def ofExcept : Except ε α → Reader β ε φ α
  | .ok a => pure a
  | .error e => throw e

/-- The next `n` symbols. -/
def take (short : ε) (n : Nat) : Reader β ε φ (List β) := fun input =>
  if n ≤ input.length then .ok (input.take n, input.drop n) else .err short

/-- `n` values one after another. -/
def times (p : Reader β ε φ α) : Nat → Reader β ε φ (List α)
  | 0 => pure []
  | n + 1 => do
    let a ← p
    let rest ← times p n
    return a :: rest

end Reader

/-- Which symbols a value is written as. -/
def Layout (β α : Type) := α → List β → Prop

/-- The inputs on which a reader faults. -/
def Trips (β : Type) := List β → Prop

namespace Layout

def only (a : α) : Layout β α := fun b front => b = a ∧ front = []

def none : Layout β α := fun _ _ => False

/-- One value after another, the second one as the first says. -/
def seq (L : Layout β α) (M : α → Layout β γ) : Layout β γ := fun c front =>
  ∃ a x y, L a x ∧ M a c y ∧ front = x ++ y

/-- `n` symbols. -/
def symbols (n : Nat) : Layout β (List β) := fun a front => front = a ∧ a.length = n

/-- `n` values. -/
def many (L : Layout β α) (n : Nat) : Layout β (List α) := fun as front =>
  as.length = n ∧ ∃ parts, List.Forall₂ L as parts ∧ front = parts.flatten

theorem many_map {L : Layout β α} {xs : List γ} (f : γ → α) (g : γ → List β)
    (h : ∀ x ∈ xs, L (f x) (g x)) : L.many xs.length (xs.map f) (xs.map g).flatten := by
  refine ⟨List.length_map _, xs.map g, ?_, rfl⟩
  induction xs with
  | nil => exact .nil
  | cons x xs ih =>
    exact .cons (h x List.mem_cons_self) (ih fun y hy => h y (List.mem_cons_of_mem _ hy))

end Layout

namespace Trips

def never : Trips β := fun _ => False

def always : Trips β := fun _ => True

/-- On the first value, or behind it. -/
def seq (T : Trips β) (L : Layout β α) (C : α → Trips β) : Trips β := fun input =>
  T input ∨ ∃ a front rest, L a front ∧ input = front ++ rest ∧ C a rest

theorem never_seq {L : Layout β α} {C : α → Trips β} {input : List β} :
    seq never L C input ↔ ∃ a front rest, L a front ∧ input = front ++ rest ∧ C a rest :=
  or_iff_right id

theorem seq_nowhere {L : Layout β α} {input : List β} : seq never L (fun _ => never) input ↔ never input := by
  refine never_seq.trans ⟨?_, False.elim⟩
  rintro ⟨_, _, _, _, _, hfalse⟩
  exact hfalse

/-- On one of `n` values, behind those before it. -/
def many (T : Trips β) (L : Layout β α) (n : Nat) : Trips β := fun input =>
  ∃ k as front rest, k < n ∧ L.many k as front ∧ input = front ++ rest ∧ T rest

end Trips

/-- The reader reads what the layout says and faults where `T` says. -/
structure Reads (p : Reader β ε φ α) (L : Layout β α) (T : Trips β) : Prop where
  ok : ∀ input a rest, p input = .ok (a, rest) ↔ ∃ front, L a front ∧ input = front ++ rest
  fault : ∀ input, (∃ f, p input = .fault f) ↔ T input

namespace Reads

variable {p : Reader β ε φ α} {L L' : Layout β α} {T T' : Trips β}

theorem congr (h : Reads p L T) (hlayout : ∀ a front, L a front ↔ L' a front)
    (htrips : ∀ input, T input ↔ T' input) : Reads p L' T' := by
  refine ⟨fun input a rest => (h.ok input a rest).trans ?_, fun input => (h.fault input).trans (htrips input)⟩
  exact exists_congr fun front => and_congr_left fun _ => hlayout a front

theorem pure (a : α) : Reads (Pure.pure a : Reader β ε φ α) (Layout.only a) Trips.never := by
  refine ⟨fun input b rest => ?_, fun input => ⟨fun ⟨f, hf⟩ => (by cases hf), False.elim⟩⟩
  constructor
  · intro h
    cases h
    exact ⟨[], ⟨rfl, rfl⟩, rfl⟩
  · rintro ⟨front, ⟨rfl, rfl⟩, rfl⟩
    rfl

theorem throw (e : ε) : Reads (Reader.throw e : Reader β ε φ α) Layout.none Trips.never :=
  ⟨fun _ _ _ => ⟨fun h => (by cases h), fun ⟨_, h, _⟩ => h.elim⟩,
    fun _ => ⟨fun ⟨_, hf⟩ => (by cases hf), False.elim⟩⟩

theorem crash (f : φ) : Reads (Reader.crash f : Reader β ε φ α) Layout.none Trips.always :=
  ⟨fun _ _ _ => ⟨fun h => (by cases h), fun ⟨_, h, _⟩ => h.elim⟩, fun _ => ⟨fun _ => trivial, fun _ => ⟨f, rfl⟩⟩⟩

theorem bind {f : α → Reader β ε φ γ} {M : α → Layout β γ} {C : α → Trips β} (hp : Reads p L T)
    (hf : ∀ a, Reads (f a) (M a) (C a)) : Reads (p >>= f) (L.seq M) (T.seq L C) := by
  refine ⟨fun input c rest => ?_, fun input => ?_⟩
  · change Reader.bind p f input = _ ↔ _
    unfold Reader.bind
    constructor
    · intro h
      cases hinput : p input with
      | ok result =>
        obtain ⟨a, mid⟩ := result
        rw [hinput] at h
        obtain ⟨x, hx, rfl⟩ := (hp.ok input a mid).mp hinput
        obtain ⟨y, hy, rfl⟩ := ((hf a).ok mid c rest).mp h
        exact ⟨x ++ y, ⟨a, x, y, hx, hy, rfl⟩, (List.append_assoc ..).symm⟩
      | err e =>
        rw [hinput] at h
        cases h
      | fault f =>
        rw [hinput] at h
        cases h
    · rintro ⟨front, ⟨a, x, y, hx, hy, rfl⟩, rfl⟩
      rw [(hp.ok (x ++ y ++ rest) a (y ++ rest)).mpr ⟨x, hx, List.append_assoc ..⟩]
      exact ((hf a).ok (y ++ rest) c rest).mpr ⟨y, hy, rfl⟩
  · change (∃ g, Reader.bind p f input = _) ↔ _
    unfold Reader.bind Trips.seq
    cases hinput : p input with
    | ok result =>
      obtain ⟨a, mid⟩ := result
      obtain ⟨x, hx, rfl⟩ := (hp.ok input a mid).mp hinput
      have hno : ¬ T (x ++ mid) := fun hT => by
        obtain ⟨g, hg⟩ := (hp.fault (x ++ mid)).mpr hT
        rw [hinput] at hg
        cases hg
      refine ((hf a).fault mid).trans ⟨fun hC => .inr ⟨a, x, mid, hx, rfl, hC⟩, fun hor => ?_⟩
      obtain ⟨b, front, rest, hfront, heq, hC⟩ := hor.resolve_left hno
      have hsame := (hp.ok (x ++ mid) b rest).mpr ⟨front, hfront, heq⟩
      rw [hinput] at hsame
      cases hsame
      exact hC
    | err e =>
      refine ⟨fun ⟨g, hg⟩ => (by cases hg), fun hor => ?_⟩
      rcases hor with hT | ⟨b, front, rest, hfront, heq, -⟩
      · obtain ⟨g, hg⟩ := (hp.fault input).mpr hT
        rw [hinput] at hg
        cases hg
      · have hsame := (hp.ok input b rest).mpr ⟨front, hfront, heq⟩
        rw [hinput] at hsame
        cases hsame
    | fault g => exact ⟨fun _ => .inl ((hp.fault input).mp ⟨g, hinput⟩), fun _ => ⟨g, rfl⟩⟩

theorem ofExcept (x : Except ε α) :
    Reads (Reader.ofExcept x : Reader β ε φ α) (fun a front => x = .ok a ∧ front = []) Trips.never := by
  cases x with
  | ok a =>
    refine (Reads.pure a).congr (fun b front => ?_) fun _ => Iff.rfl
    exact and_congr_left fun _ => ⟨fun h => h ▸ rfl, fun h => by cases h; rfl⟩
  | error e =>
    refine (Reads.throw e).congr (fun b front => ?_) fun _ => Iff.rfl
    exact ⟨False.elim, fun h => by cases h.1⟩

/-- A branch on what is known before. -/
theorem ite {q : Reader β ε φ α} {M : Layout β α} {C : Trips β} {b : Prop} [Decidable b]
    (hp : Reads p L T) (hq : Reads q M C) :
    Reads (if b then p else q) (fun a front => if b then L a front else M a front)
      (fun input => if b then T input else C input) := by
  by_cases hb : b
  · simp only [if_pos hb]
    exact hp
  · simp only [if_neg hb]
    exact hq

theorem take (short : ε) (n : Nat) :
    Reads (Reader.take short n : Reader β ε φ (List β)) (Layout.symbols n) Trips.never := by
  refine ⟨fun input a rest => ?_, fun input => ⟨fun ⟨f, hf⟩ => ?_, False.elim⟩⟩
  · unfold Reader.take Layout.symbols
    constructor
    · intro h
      split at h
      · rename_i hlen
        cases h
        exact ⟨input.take n, ⟨rfl, List.length_take_of_le hlen⟩, (List.take_append_drop n input).symm⟩
      · cases h
    · rintro ⟨front, ⟨rfl, rfl⟩, rfl⟩
      rw [if_pos (by simp), List.take_left, List.drop_left]
  · unfold Reader.take at hf
    split at hf <;> cases hf

theorem many_zero {as : List α} {front : List β} : L.many 0 as front ↔ as = [] ∧ front = [] := by
  constructor
  · rintro ⟨hlen, parts, hparts, rfl⟩
    obtain rfl := List.length_eq_zero_iff.mp hlen
    cases hparts
    exact ⟨rfl, rfl⟩
  · rintro ⟨rfl, rfl⟩
    exact ⟨rfl, [], .nil, rfl⟩

theorem many_succ {as : List α} {front : List β} :
    L.many (n + 1) as front ↔ ∃ a tail x y, as = a :: tail ∧ L a x ∧ L.many n tail y ∧ front = x ++ y := by
  constructor
  · rintro ⟨hlen, parts, hparts, rfl⟩
    cases hparts with
    | nil => cases hlen
    | cons hhead htail =>
      exact ⟨_, _, _, _, rfl, hhead, ⟨Nat.succ.inj hlen, _, htail, rfl⟩, rfl⟩
  · rintro ⟨a, tail, x, y, rfl, hx, ⟨hlen, parts, hparts, rfl⟩, rfl⟩
    exact ⟨congrArg Nat.succ hlen, x :: parts, .cons hx hparts, rfl⟩

theorem times (h : Reads p L T) (n : Nat) : Reads (p.times n) (L.many n) (T.many L n) := by
  induction n with
  | zero =>
    refine (Reads.pure []).congr (fun as front => many_zero.symm) fun input => ?_
    exact ⟨False.elim, fun ⟨k, _, _, _, hk, _⟩ => absurd hk (Nat.not_lt_zero k)⟩
  | succ n ih =>
    have hbind := h.bind fun a => ih.bind fun tail => Reads.pure (β := β) (ε := ε) (φ := φ) (a :: tail)
    refine hbind.congr (fun as front => ?_) fun input => ?_
    · rw [many_succ]
      constructor
      · rintro ⟨a, x, y, hx, ⟨tail, y', z, htail, ⟨rfl, rfl⟩, rfl⟩, rfl⟩
        exact ⟨a, tail, x, y', rfl, hx, htail, by rw [List.append_nil]⟩
      · rintro ⟨a, tail, x, y, rfl, hx, htail, rfl⟩
        exact ⟨a, x, y, hx, ⟨tail, y, [], htail, ⟨rfl, rfl⟩, (List.append_nil y).symm⟩, rfl⟩
    · constructor
      · rintro (hT | ⟨a, front, rest, hfront, rfl, hrest⟩)
        · exact ⟨0, [], [], input, Nat.succ_pos n, many_zero.mpr ⟨rfl, rfl⟩, rfl, hT⟩
        · rcases hrest with ⟨k, as, y, z, hk, has, rfl, hT⟩ | ⟨_, _, _, _, _, hfalse⟩
          · exact ⟨k + 1, a :: as, front ++ y, z, Nat.succ_lt_succ hk,
              many_succ.mpr ⟨a, as, front, y, rfl, hfront, has, rfl⟩, (List.append_assoc ..).symm, hT⟩
          · exact hfalse.elim
      · rintro ⟨k, as, front, rest, hk, has, rfl, hT⟩
        cases k with
        | zero =>
          obtain ⟨rfl, rfl⟩ := many_zero.mp has
          exact .inl hT
        | succ k =>
          obtain ⟨a, tail, x, y, rfl, hx, htail, rfl⟩ := many_succ.mp has
          exact .inr ⟨a, x, y ++ rest, hx, List.append_assoc .., .inl ⟨k, tail, y, rest,
            Nat.lt_of_succ_lt_succ hk, htail, rfl, hT⟩⟩

end Reads
end Flambeau.Systems
