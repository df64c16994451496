import Flambeau.Server.ToolCallParser.Gemma4Pieces

namespace Flambeau.Server.ToolCallParser.Gemma4
open Flambeau.Stream Flambeau.Stream.Machine

/-! The leading lines. -/

/-- What is left behind the scaffolding lines in front that are complete. -/
def dropLines (u : Text) : Text :=
  match _h : find ['\n'] u with
  | some nl => if isScaffoldingLine (u.take nl) then dropLines (u.drop (nl + 1)) else u
  | none => u
termination_by u.length
decreasing_by
  have hle := find_le _h
  rw [List.length_drop]
  simp only [List.length_cons, List.length_nil] at hle
  omega

/-- An input without its leading scaffolding lines; the last may end with the input. -/
def dropScaffolding (w : Text) : Text :=
  if '\n' ∉ dropLines w ∧ isScaffoldingLine (dropLines w) = true then [] else dropLines w

def firstLine (s : Text) : Text := s.takeWhile (· != '\n')

/-- A text is a last line, or a line and what follows it. -/
@[elab_as_elim]
theorem byLines {motive : Text → Prop} (u : Text) (last : ∀ u, '\n' ∉ u → motive u)
    (line : ∀ l r, '\n' ∉ l → motive r → motive (l ++ '\n' :: r)) : motive u := by
  by_cases hmem : '\n' ∈ u
  · obtain ⟨l, r, heq, hl⟩ := List.eq_append_cons_of_mem hmem
    have hlt : r.length < u.length := by
      rw [heq, List.length_append, List.length_cons]
      omega
    rw [heq]
    exact line l r hl (byLines r last line)
  · exact last u hmem
termination_by u.length

theorem dropLines_open (h : '\n' ∉ u) : dropLines u = u := by
  rw [dropLines]
  split
  · rename_i nl hnl
    rw [find_letter_iff.mpr h] at hnl
    cases hnl
  · rfl

theorem dropLines_line (hl : '\n' ∉ l) (r : Text) :
    dropLines (l ++ '\n' :: r) = if isScaffoldingLine l = true then dropLines r else l ++ '\n' :: r := by
  rw [dropLines]
  split
  · rename_i nl hnl
    rw [find_letter hl] at hnl
    cases hnl
    rw [List.take_left, ← List.drop_drop, List.drop_left]
    rfl
  · rename_i hnl
    rw [find_letter hl] at hnl
    cases hnl

theorem firstLine_open (h : '\n' ∉ u) : firstLine u = u := by
  have hall : ∀ c ∈ u, (c != '\n') = true := fun c hc => bne_iff_ne.mpr fun heq => h (heq ▸ hc)
  have hwhole : (u ++ []).takeWhile (· != '\n') = u ++ [].takeWhile (· != '\n') := List.takeWhile_append_of_pos hall
  rw [List.append_nil, List.takeWhile_nil, List.append_nil] at hwhole
  exact hwhole

theorem firstLine_line (hl : '\n' ∉ l) (r : Text) : firstLine (l ++ '\n' :: r) = l := by
  have hall : ∀ c ∈ l, (c != '\n') = true := fun c hc => bne_iff_ne.mpr fun heq => hl (heq ▸ hc)
  rw [firstLine, List.takeWhile_append_of_pos hall]
  simp

theorem firstLine_append (h : '\n' ∈ u) (x : Text) : firstLine (u ++ x) = firstLine u := by
  obtain ⟨l, r, rfl, hl⟩ := List.eq_append_cons_of_mem h
  rw [List.append_assoc, List.cons_append, firstLine_line hl, firstLine_line hl]

theorem scaffolding_nil : isScaffoldingLine [] = false := rfl

/-- The line in front of what is left is no scaffolding. -/
theorem dropLines_first (u : Text) : '\n' ∈ dropLines u → isScaffoldingLine (firstLine (dropLines u)) = false := by
  induction u using byLines with
  | last u hu =>
    rw [dropLines_open hu]
    exact fun h => absurd h hu
  | line l r hl ih =>
    rw [dropLines_line hl]
    by_cases hline : isScaffoldingLine l = true
    · rw [if_pos hline]
      exact ih
    · rw [if_neg hline, firstLine_line hl]
      exact fun _ => eq_false_of_ne_true hline

theorem dropLines_stop (h : '\n' ∈ u → isScaffoldingLine (firstLine u) = false) : dropLines u = u := by
  by_cases hmem : '\n' ∈ u
  · have hfirst := h hmem
    obtain ⟨l, r, rfl, hl⟩ := List.eq_append_cons_of_mem hmem
    rw [firstLine_line hl] at hfirst
    rw [dropLines_line hl, hfirst, if_neg Bool.false_ne_true]
  · exact dropLines_open hmem

/-- The complete lines may be dropped before the rest comes. -/
theorem dropLines_append (u x : Text) : dropLines (u ++ x) = dropLines (dropLines u ++ x) := by
  induction u using byLines with
  | last u hu => rw [dropLines_open hu]
  | line l r hl ih =>
    rw [dropLines_line hl]
    by_cases hline : isScaffoldingLine l = true
    · rw [if_pos hline, List.append_assoc, List.cons_append, dropLines_line hl, if_pos hline, ih]
    · rw [if_neg hline]

theorem dropScaffolding_append (u x : Text) : dropScaffolding (u ++ x) = dropScaffolding (dropLines u ++ x) := by
  rw [dropScaffolding, dropLines_append, dropScaffolding]

theorem dropLines_length (u : Text) : (dropLines u).length ≤ u.length := by
  induction u using byLines with
  | last u hu =>
    exact Nat.le_of_eq (congrArg List.length (dropLines_open hu))
  | line l r hl ih =>
    rw [dropLines_line hl]
    split
    · rw [List.length_append, List.length_cons]
      omega
    · exact Nat.le_refl _

/-- An input keeps all of its lines just when the first is no scaffolding. -/
theorem dropScaffolding_self (w : Text) : dropScaffolding w = w ↔ isScaffoldingLine (firstLine w) = false := by
  by_cases hmem : '\n' ∈ w
  · obtain ⟨l, r, rfl, hl⟩ := List.eq_append_cons_of_mem hmem
    rw [firstLine_line hl, dropScaffolding, dropLines_line hl]
    by_cases hline : isScaffoldingLine l = true
    · rw [if_pos hline, hline]
      refine iff_of_false (fun h => ?_) nofun
      have hle := dropLines_length r
      have hlen := congrArg List.length h
      rw [List.length_append, List.length_cons] at hlen
      split at hlen
      · rw [List.length_nil] at hlen
        omega
      · omega
    · rw [if_neg hline, if_neg fun h => h.1 hmem]
      exact iff_of_true rfl (eq_false_of_ne_true hline)
  · rw [firstLine_open hmem, dropScaffolding, dropLines_open hmem]
    by_cases hline : isScaffoldingLine w = true
    · rw [if_pos ⟨hmem, hline⟩, hline]
      refine iff_of_false ?_ nofun
      rintro rfl
      rw [scaffolding_nil] at hline
      cases hline
    · rw [if_neg fun h => hline h.2]
      exact iff_of_true rfl (eq_false_of_ne_true hline)

/-! The guard over the chunks. -/

theorem consumeEcho_lines (fin : Bool) (u : Text) : consumeEcho fin u =
    if '\n' ∈ dropLines u then (dropLines u, false)
    else if (!fin && couldExtendToScaffoldingLine (dropLines u)) = true then (dropLines u, true)
    else if (fin && isScaffoldingLine (dropLines u)) = true then ([], false)
    else (dropLines u, false) := by
  induction u using byLines with
  | last u hu =>
    rw [dropLines_open hu, if_neg hu, consumeEcho]
    split
    · rename_i nl hnl
      rw [find_letter_iff.mpr hu] at hnl
      cases hnl
    · rfl
  | line l r hl ih =>
    have hstep : consumeEcho fin (l ++ '\n' :: r) =
        if isScaffoldingLine l = true then consumeEcho fin r else (l ++ '\n' :: r, false) := by
      rw [consumeEcho]
      split
      · rename_i nl hnl
        rw [find_letter hl] at hnl
        cases hnl
        rw [List.take_left, ← List.drop_drop, List.drop_left]
        rfl
      · rename_i hnl
        rw [find_letter hl] at hnl
        cases hnl
    rw [hstep, dropLines_line hl]
    by_cases hline : isScaffoldingLine l = true
    · rw [if_pos hline, if_pos hline, ih]
    · have hmem : '\n' ∈ l ++ '\n' :: r := List.mem_append_right l List.mem_cons_self
      rw [if_neg hline, if_neg hline, if_pos hmem]

/-- What the guard hands on in the end, with `b` held before the chunks. -/
def handedOn (b : Text) : List Text → Text
  | [] => (consumeEcho true b).1
  | c :: cs =>
    if (consumeEcho false (b ++ c)).2 then handedOn (consumeEcho false (b ++ c)).1 cs
    else (consumeEcho false (b ++ c)).1 ++ cs.flatten

/-- At a cut inside a leading line that turns out to be scaffolding, the part of it that has come
shows it: it may be held. -/
def HeldAt (front back : Text) : Prop :=
  '\n' ∉ dropLines front → isScaffoldingLine (firstLine (dropLines front ++ back)) = true →
    couldExtendToScaffoldingLine (dropLines front) = true

/-- So it is behind each chunk. -/
def HeldAtCuts (chunks : List Text) : Prop :=
  ∀ front back, chunks = front ++ back → front ≠ [] → HeldAt front.flatten back.flatten

theorem handedOn_nil (b : Text) : handedOn b [] = dropScaffolding b := by
  rw [handedOn, consumeEcho_lines, dropScaffolding, Bool.not_true, Bool.false_and, if_neg Bool.false_ne_true,
    Bool.true_and]
  by_cases hmem : '\n' ∈ dropLines b
  · rw [if_pos hmem, if_neg fun h => h.1 hmem]
  · rw [if_neg hmem]
    by_cases hline : isScaffoldingLine (dropLines b) = true
    · rw [if_pos hline, if_pos ⟨hmem, hline⟩]
    · rw [if_neg hline, if_neg fun h => hline h.2]

/-- Where the line in front is no scaffolding, every cut behind it is fine. -/
theorem heldAt_of_first (h : isScaffoldingLine (firstLine (u ++ back)) = false) : HeldAt u back := by
  intro hopen hline
  have hstay : dropLines u = u := by
    apply dropLines_stop
    intro hmem
    rw [← firstLine_append hmem back]
    exact h
  rw [hstay, h] at hline
  cases hline

theorem heldAt_congr (h : dropLines u = dropLines u') (back : Text) : HeldAt u back ↔ HeldAt u' back := by
  rw [HeldAt, HeldAt, h]

theorem handedOn_from (b : Text) (chunks : List Text) :
    handedOn b chunks = dropScaffolding (b ++ chunks.flatten) ↔
      ∀ front back, chunks = front ++ back → front ≠ [] → HeldAt (b ++ front.flatten) back.flatten := by
  induction chunks generalizing b with
  | nil =>
    rw [handedOn_nil, List.flatten_nil, List.append_nil]
    refine iff_of_true rfl fun front back h hne => ?_
    exact absurd (List.append_eq_nil_iff.mp h.symm).1 hne
  | cons c cs ih =>
    have hrest : ∀ front, dropLines (b ++ (c :: front).flatten) = dropLines (dropLines (b ++ c) ++ front.flatten) := by
      intro front
      rw [List.flatten_cons, ← List.append_assoc, dropLines_append]
    have hdrop : dropScaffolding (b ++ (c :: cs).flatten) = dropScaffolding (dropLines (b ++ c) ++ cs.flatten) := by
      rw [List.flatten_cons, ← List.append_assoc, dropScaffolding_append]
    have hcuts : (∀ front back, c :: cs = front ++ back → front ≠ [] → HeldAt (b ++ front.flatten) back.flatten) ↔
        ∀ front back, cs = front ++ back → HeldAt (dropLines (b ++ c) ++ front.flatten) back.flatten := by
      constructor
      · intro h front back hcs
        rw [← heldAt_congr (hrest front)]
        exact h (c :: front) back (by rw [hcs]; rfl) nofun
      · intro h front back hcs hne
        cases front with
        | nil => exact absurd rfl hne
        | cons d front =>
          obtain ⟨hd, htail⟩ := List.cons.inj hcs
          rw [← hd, heldAt_congr (hrest front)]
          exact h front back htail
    rw [hcuts, hdrop, handedOn, consumeEcho_lines, Bool.not_false, Bool.true_and, Bool.false_and]
    have hfirst := dropLines_first (b ++ c)
    generalize dropLines (b ++ c) = q at hfirst ⊢
    by_cases hmem : '\n' ∈ q
    · have hstop : ∀ x, isScaffoldingLine (firstLine (q ++ x)) = false := by
        intro x
        rw [firstLine_append hmem]
        exact hfirst hmem
      rw [if_pos hmem, if_neg Bool.false_ne_true, (dropScaffolding_self _).mpr (hstop _)]
      refine iff_of_true rfl fun front back _ => heldAt_of_first ?_
      rw [List.append_assoc]
      exact hstop _
    · rw [if_neg hmem]
      by_cases hhold : couldExtendToScaffoldingLine q = true
      · rw [if_pos hhold, if_pos rfl, ih]
        constructor
        · intro h front back hcs
          cases front with
          | nil =>
            intro _ _
            rw [List.flatten_nil, List.append_nil, dropLines_open hmem]
            exact hhold
          | cons d front => exact h (d :: front) back hcs nofun
        · exact fun h front back hcs _ => h front back hcs
      · rw [if_neg hhold, if_neg Bool.false_ne_true, if_neg Bool.false_ne_true, eq_comm, dropScaffolding_self]
        constructor
        · intro h front back hcs
          apply heldAt_of_first
          rw [List.append_assoc, ← List.flatten_append, ← hcs]
          exact h
        · intro h
          apply eq_false_of_ne_true
          intro hline
          have hheld := h [] cs rfl
          rw [List.flatten_nil, List.append_nil, HeldAt, dropLines_open hmem] at hheld
          exact hhold (hheld hmem hline)

/-- The guard takes away the leading scaffolding lines, and nothing else, just when each cut
inside one of them finds it held. -/
theorem handedOn_iff (chunks : List Text) : handedOn [] chunks = dropScaffolding chunks.flatten ↔ HeldAtCuts chunks :=
  handedOn_from [] chunks

/-! The end of the input. -/

variable (serde : GemmaSerde)

/-- The end of the input finds the events of a drain and a `finish`, or the same step. -/
def Ends (p : Gemma4ToolCallParser) : Prop :=
  ((machine serde).ending p).map ParserEvent.coalesce =
      (((machine serde).finish p).map (·.1)).map ParserEvent.coalesce ∨
    ∃ es p', step serde false p = some (es, p', true) ∧ step serde true p = some (es, p', true) ∧ IsAscii p'.buf

variable {serde}

theorem ends_wait (h : step serde false p = some ([], p, false)) : Ends serde p :=
  .inl (congrArg _ (ending_wait (m := machine serde) h))

theorem ends_step (h : step serde false p = step serde true p)
    (hwait : ∀ es p', step serde false p = some (es, p', false) → es = [] ∧ p' = p) (hascii : IsAscii p.buf) :
    Ends serde p := by
  obtain ⟨es, p', b, hstep, hascii'⟩ := @step_ascii serde false p hascii
  cases b with
  | true => exact .inr ⟨es, p', hstep, h ▸ hstep, hascii'⟩
  | false =>
    obtain ⟨rfl, rfl⟩ := hwait es p' hstep
    exact ends_wait hstep

variable (serde)

theorem ends_ascii (hascii : IsAscii p.buf) : Ends serde p := by
  cases hs : p.state with
  | text =>
    cases he : earliest textOpenTags p.buf with
    | some r =>
      apply ends_step _ _ hascii
      · simp only [step, hs, stepText, he]
      · intro es p' h
        simp only [step, hs, stepText, he, Option.some.injEq, Prod.mk.injEq, Bool.true_eq_false, and_false] at h
    | none =>
      have hnone := @tagEntry_none _ ParserEvent _ _ _ (fun tag rest => enter p (afterTag tag) rest) |>.mpr he
      have hends := (text_prose serde hs).ends ParserEvent.congruent hnone trivial
      have hlast := (text_prose serde hs).last hnone
      exact .inl (hends.trans (congrArg (Option.map ParserEvent.coalesce) hlast).symm)
  | inChannel =>
    cases he : earliest channelClosers p.buf with
    | some r =>
      apply ends_step _ _ hascii
      · simp only [step, hs, stepInChannel, he]
      · intro es p' h
        simp only [step, hs, stepInChannel, he, Option.some.injEq, Prod.mk.injEq, Bool.true_eq_false, and_false] at h
    | none =>
      have hnone := @tagEntry_none _ ParserEvent _ _ _ (fun _ rest => enter p .text rest) |>.mpr he
      have hends := (channel_prose serde hs).ends ParserEvent.congruent hnone trivial
      have hlast := (channel_prose serde hs).last hnone
      exact .inl (hends.trans (congrArg (Option.map ParserEvent.coalesce) hlast).symm)
  | inCallHeader =>
    apply ends_step _ _ hascii
    · rw [step_callHeader serde hs, step_callHeader serde hs]
    · intro es p' h
      rw [step_callHeader serde hs] at h
      exact stepInCallHeader_wait serde (Option.some.inj h)
  | inArgs =>
    apply ends_step _ _ hascii
    · rw [step_args serde hs, step_args serde hs]
    · intro es p' h
      have hall : IsAscii (p.buf ++ []) := by
        rw [List.append_nil]
        exact hascii
      obtain ⟨r, hr, -⟩ := scanArgs_append p.argsDepth p.argsInString hall
      cases hclosed : r.closed with
      | true =>
        rw [args_close serde hs hr hclosed] at h
        cases h
      | false =>
        rw [args_open serde hs hr hclosed] at h
        simp only [Option.some.injEq, Prod.mk.injEq, Bool.not_eq_false', List.isEmpty_iff] at h
        obtain ⟨rfl, rfl, hnil⟩ := h
        refine ⟨rfl, ?_⟩
        rw [scanArgs_still hr hclosed hnil]
        simp [scanned]
  | awaitingClose =>
    apply ends_step _ _ hascii
    · simp only [step, hs]
    · intro es p' h
      simp only [step, hs, stepAwaitingClose, Option.some.injEq] at h
      split at h
      · cases h
      · cases h
        exact ⟨rfl, rfl⟩
  | inToolCode =>
    cases he : earliest codeClosers p.buf with
    | some r =>
      apply ends_step _ _ hascii
      · simp only [step, hs, stepInToolCode, he]
      · intro es p' h
        simp only [step, hs, stepInToolCode, he, Option.some.injEq, Prod.mk.injEq, Bool.true_eq_false, and_false] at h
    | none =>
      apply ends_wait
      simp only [step, hs, stepInToolCode, he, Bool.false_eq_true, if_false]
  | inToolResponse =>
    cases hf : find toolResponseClose p.buf with
    | some pos =>
      apply ends_step _ _ hascii
      · simp only [step, hs, stepInToolResponse, hf]
      · intro es p' h
        simp only [step, hs, stepInToolResponse, hf, Option.some.injEq, Prod.mk.injEq, Bool.true_eq_false, and_false] at h
    | none =>
      apply ends_wait
      simp only [step, hs, stepInToolResponse, hf, Bool.false_eq_true, if_false]
  | inTurnHeader =>
    cases hf : find ['\n'] p.buf with
    | some nl =>
      apply ends_step _ _ hascii
      · simp only [step, hs, stepInTurnHeader, hf]
      · intro es p' h
        simp only [step, hs, stepInTurnHeader, hf, Option.some.injEq, Prod.mk.injEq, Bool.true_eq_false, and_false] at h
    | none =>
      apply ends_wait
      simp only [step, hs, stepInTurnHeader, hf, Bool.false_eq_true, if_false]

/-- A drain in front of `finish` changes nothing. -/
theorem finish_drained (hascii : IsAscii p.buf) :
    ((machine serde).ending p).map ParserEvent.coalesce =
      (((machine serde).finish p).map (·.1)).map ParserEvent.coalesce :=
  ending_finish (I := fun p => IsAscii p.buf) ParserEvent.congruent (fun _ hp => ends_ascii serde hp) hascii

/-! Streams with the guard. -/

/-- A parser of which the guard holds `b`. -/
def armed (b : Text) : Gemma4ToolCallParser := { Gemma4ToolCallParser.withPendingChannelClose with buf := b }

/-- What the guard hands on at the end of the input is taken as by a parser without one. -/
theorem finish_fed (hascii : IsAscii r) :
    ∃ es fs, ((machine serde).finish ((machine serde).feed .new r)).map (·.1) = some es ∧
      stream serde .new [r] = some fs ∧ ParserEvent.coalesce es = ParserEvent.coalesce fs := by
  obtain ⟨fs, hfs⟩ := ascii_safe serde (show IsAscii [r].flatten by simpa using hascii)
  have hrun := hfs
  rw [stream_machine serde rfl] at hrun
  by_cases hr : r = []
  · subst hr
    rw [Machine.stream, Machine.push, List.isEmpty_nil, if_pos rfl, Option.bind_some, Machine.stream] at hrun
    obtain ⟨es, hes, rfl⟩ := Option.map_eq_some_iff.mp hrun
    exact ⟨es, es, hes, hfs, rfl⟩
  · rw [stream_one hr] at hrun
    have hsame := finish_drained serde (p := (machine serde).feed .new r) hascii
    rw [hrun] at hsame
    obtain ⟨es, hes, hnorm⟩ := Option.map_eq_some_iff.mp hsame.symm
    exact ⟨es, fs, hes, hfs, hnorm⟩

theorem armed_guard (b : Text) (fin : Bool) : tryConsumeEchoPrefix (armed b) fin =
    { Gemma4ToolCallParser.new with buf := (consumeEcho fin b).1, pendingThoughtEcho := (consumeEcho fin b).2 } := rfl

theorem armed_finish (b : Text) :
    stream serde (armed b) [] = ((machine serde).finish ((machine serde).feed .new (handedOn b []))).map (·.1) := by
  have hguard : tryConsumeEchoPrefix (armed b) true = (machine serde).feed .new (consumeEcho true b).1 := by
    rw [armed_guard, consumeEcho_decides]
    rfl
  rw [stream, finish, hguard]
  rfl

theorem armed_held (hc : c ≠ []) (hheld : (consumeEcho false (b ++ c)).2 = true) (chunks : List Text) :
    stream serde (armed b) (c :: chunks) = stream serde (armed (consumeEcho false (b ++ c)).1) chunks := by
  have hpush : push serde (armed b) c = some ([], armed (consumeEcho false (b ++ c)).1) := by
    have hguard : tryConsumeEchoPrefix ((machine serde).feed (armed b) c) false = armed (consumeEcho false (b ++ c)).1 := by
      have hstep := armed_guard (b ++ c) false
      rw [hheld] at hstep
      exact hstep
    rw [push, List.isEmpty_eq_false_iff.mpr hc, if_neg Bool.false_ne_true, hguard]
    rfl
  rw [stream, hpush]
  simp

theorem consumeEcho_rest (h : (consumeEcho false u).2 = false) : (consumeEcho false u).1 ≠ [] := by
  rw [consumeEcho_lines, Bool.not_false, Bool.true_and, Bool.false_and, if_neg Bool.false_ne_true] at h ⊢
  intro hnil
  split at h
  · rename_i hmem
    rw [if_pos hmem] at hnil
    have hempty : dropLines u = [] := hnil
    rw [hempty] at hmem
    cases hmem
  · rename_i hopen
    split at h
    · cases h
    · rename_i hstop
      rw [if_neg hopen, if_neg hstop] at hnil
      have hempty : dropLines u = [] := hnil
      rw [hempty] at hstop
      exact hstop rfl

theorem armed_passed (hc : c ≠ []) (hpassed : (consumeEcho false (b ++ c)).2 = false) (chunks : List Text) :
    stream serde (armed b) (c :: chunks) = stream serde .new ((consumeEcho false (b ++ c)).1 :: chunks) := by
  have hrest := consumeEcho_rest hpassed
  have hpush : push serde (armed b) c = push serde .new (consumeEcho false (b ++ c)).1 := by
    have hguard : tryConsumeEchoPrefix ((machine serde).feed (armed b) c) false =
        (machine serde).feed .new (consumeEcho false (b ++ c)).1 := by
      have hstep := armed_guard (b ++ c) false
      rw [hpassed] at hstep
      exact hstep
    rw [push, List.isEmpty_eq_false_iff.mpr hc, if_neg Bool.false_ne_true, hguard, push,
      List.isEmpty_eq_false_iff.mpr hrest, if_neg Bool.false_ne_true, echo_off rfl]
  rw [stream, hpush, stream]

theorem consumeEcho_ascii (h : IsAscii u) (fin : Bool) : IsAscii (consumeEcho fin u).1 := by
  obtain ⟨n, hn⟩ := consumeEcho_drop fin u
  rw [hn]
  exact h.sub fun c hc => List.mem_of_mem_drop hc

/-- With the guard up the parser takes what the guard hands on. -/
theorem armed_stream (b : Text) (chunks : List Text) (hchunks : ∀ c ∈ chunks, c ≠ [])
    (hascii : IsAscii (b ++ chunks.flatten)) :
    ∃ es fs, stream serde (armed b) chunks = some es ∧ stream serde .new [handedOn b chunks] = some fs ∧
      ParserEvent.coalesce es = ParserEvent.coalesce fs := by
  induction chunks generalizing b with
  | nil =>
    rw [List.flatten_nil, List.append_nil] at hascii
    rw [armed_finish]
    exact finish_fed serde (consumeEcho_ascii hascii true)
  | cons c cs ih =>
    rw [List.flatten_cons, ← List.append_assoc] at hascii
    obtain ⟨hfront, hback⟩ := isAscii_append.mp hascii
    have hrest := consumeEcho_ascii hfront false
    have hc := hchunks c List.mem_cons_self
    have hcs : ∀ d ∈ cs, d ≠ [] := fun d hd => hchunks d (List.mem_cons_of_mem c hd)
    rw [handedOn]
    cases hheld : (consumeEcho false (b ++ c)).2 with
    | true =>
      rw [if_pos rfl, armed_held serde hc hheld]
      exact ih _ hcs (isAscii_append.mpr ⟨hrest, hback⟩)
    | false =>
      have hne : ∀ d ∈ (consumeEcho false (b ++ c)).1 :: cs, d ≠ [] := by
        intro d hd
        rcases List.mem_cons.mp hd with rfl | hd
        · exact consumeEcho_rest hheld
        · exact hcs d hd
      rw [if_neg Bool.false_ne_true, armed_passed serde hc hheld]
      exact gemma4_chunks_agree serde _ hne (isAscii_append.mpr ⟨hrest, hback⟩)

/-- A scaffolding line that is cut behind its marker, and the reply. -/
def cutEcho : List Text := [['<', '|', 't', 'u', 'r', 'n', '>', 'm', 'o'], ['d', 'e', 'l', '\n', 'H', 'i']]

theorem cutEcho_held : HeldAtCuts cutEcho := by
  rintro (_ | ⟨a, _ | ⟨b, front⟩⟩) back heq hne
  · exact absurd rfl hne
  · obtain ⟨rfl, rfl⟩ := List.cons.inj heq
    intro hopen _
    rw [List.flatten_cons, List.flatten_nil, List.append_nil, dropLines_open (by decide)]
    decide
  · obtain ⟨rfl, htail⟩ := List.cons.inj heq
    obtain ⟨rfl, hnil⟩ := List.cons.inj htail
    obtain ⟨rfl, rfl⟩ := List.append_eq_nil_iff.mp hnil.symm
    intro _ hline
    have hdrop := dropLines_line (l := ['<', '|', 't', 'u', 'r', 'n', '>', 'm', 'o', 'd', 'e', 'l']) (by decide) ['H', 'i']
    rw [if_pos (by decide), dropLines_open (u := ['H', 'i']) (by decide)] at hdrop
    change isScaffoldingLine (firstLine (dropLines (['<', '|', 't', 'u', 'r', 'n', '>', 'm', 'o', 'd', 'e', 'l'] ++
      '\n' :: ['H', 'i']) ++ [])) = true at hline
    rw [hdrop] at hline
    exact absurd hline (by decide)

/-- A scaffolding line that is cut in front of its marker. -/
def cutModel : List Text := [['m', 'o', 'd'], ['e', 'l', '<', '|', 't', 'u', 'r', 'n', '>']]

end Flambeau.Server.ToolCallParser.Gemma4
