namespace Flambeau.Systems

/-- A sender's own state, what it has sent, and how many messages its receiver takes before
it leaves. -/
structure Outbox (σ φ : Type) where
  own : σ
  sent : List φ
  takes : Option Nat

/-- A program that ends where a message cannot be sent. -/
abbrev Sending (σ φ α : Type) := EStateM Unit (Outbox σ φ) α

namespace Outbox

variable {σ φ α β : Type}

def gone (o : Outbox σ φ) : Bool := o.takes.any (· ≤ o.sent.length)

def send (m : φ) : Sending σ φ Unit := fun o =>
  if o.gone then .error () o else .ok () { o with sent := o.sent ++ [m] }

def getOwn : Sending σ φ σ := fun o => .ok o.own o

def setOwn (s : σ) : Sending σ φ Unit := fun o => .ok () { o with own := s }

/-- The program's outcome is not looked at. -/
def attempt (m : Sending σ φ α) (o : Outbox σ φ) : Outbox σ φ :=
  match m o with
  | .ok _ o' => o'
  | .error _ o' => o'

theorem bind_ok {m : Sending σ φ α} (f : α → Sending σ φ β) (h : m o = .ok a o') : (m >>= f) o = f a o' := by
  change EStateM.bind m f o = f a o'
  rw [EStateM.bind, h]

theorem bind_error {m : Sending σ φ α} (f : α → Sending σ φ β) (h : m o = .error e o') :
    (m >>= f) o = .error e o' := by
  change EStateM.bind m f o = .error e o'
  rw [EStateM.bind, h]

/-! A receiver that stays. -/

def Sends (m : Sending σ φ α) (s : σ) (a : α) (more : List φ) (s' : σ) : Prop :=
  ∀ sent, m ⟨s, sent, none⟩ = .ok a ⟨s', sent ++ more, none⟩

theorem sends_pure (a : α) (s : σ) : Sends (pure a : Sending σ φ α) s a [] s := by
  intro sent
  rw [List.append_nil]
  rfl

theorem sends_getOwn (s : σ) : Sends (getOwn : Sending σ φ σ) s s [] s := by
  intro sent
  rw [List.append_nil]
  rfl

theorem sends_setOwn (s s' : σ) : Sends (setOwn s' : Sending σ φ Unit) s () [] s' := by
  intro sent
  rw [List.append_nil]
  rfl

theorem sends_send (m : φ) (s : σ) : Sends (send m) s () [m] s := fun _ => rfl

theorem Sends.bind {m : Sending σ φ α} {f : α → Sending σ φ β} (hm : Sends m s a more s₁)
    (hf : Sends (f a) s₁ b rest s₂) : Sends (m >>= f) s b (more ++ rest) s₂ := by
  intro sent
  rw [bind_ok f (hm sent), hf, List.append_assoc]

theorem Sends.unique {m : Sending σ φ α} (h : Sends m s a more s') (h' : Sends m s a' more₂ s₂) :
    s' = s₂ ∧ more = more₂ := by
  have heq := (h []).symm.trans (h' [])
  injection heq with _ heq
  injection heq with hown hsent
  exact ⟨hown, hsent⟩

/-- A state that is read sends nothing. -/
theorem Sends.own {f : σ → Sending σ φ β} (hf : Sends (f s) s b rest s') : Sends (getOwn >>= f) s b rest s' :=
  (sends_getOwn s).bind hf

theorem Sends.set {f : Unit → Sending σ φ β} (hf : Sends (f ()) s₁ b rest s') :
    Sends (setOwn s₁ >>= f) s b rest s' :=
  (sends_setOwn s s₁).bind hf

theorem Sends.attempt {m : Sending σ φ α} (h : Sends m s a more s') (sent : List φ) :
    Outbox.attempt m ⟨s, sent, none⟩ = ⟨s', sent ++ more, none⟩ := by
  rw [Outbox.attempt, h]

/-! A receiver that leaves. -/

/-- For a receiver that leaves the program does what it does for one that stays, until a
message is too many. -/
def Cuts (m : Sending σ φ α) : Prop := ∀ s, ∃ a more s', Sends m s a more s' ∧ ∀ sent n, sent.length ≤ n →
  if (sent ++ more).length ≤ n then m ⟨s, sent, some n⟩ = .ok a ⟨s', sent ++ more, some n⟩
  else ∃ s'', m ⟨s, sent, some n⟩ = .error () ⟨s'', (sent ++ more).take n, some n⟩

theorem cuts_pure (a : α) : Cuts (pure a : Sending σ φ α) := by
  intro s
  refine ⟨a, [], s, sends_pure a s, fun sent n hn => ?_⟩
  rw [List.append_nil, if_pos hn]
  rfl

theorem cuts_getOwn : Cuts (getOwn : Sending σ φ σ) := by
  intro s
  refine ⟨s, [], s, sends_getOwn s, fun sent n hn => ?_⟩
  rw [List.append_nil, if_pos hn]
  rfl

theorem cuts_setOwn (s' : σ) : Cuts (setOwn s' : Sending σ φ Unit) := by
  intro s
  refine ⟨(), [], s', sends_setOwn s s', fun sent n hn => ?_⟩
  rw [List.append_nil, if_pos hn]
  rfl

theorem cuts_send (m : φ) : Cuts (send m : Sending σ φ Unit) := by
  intro s
  refine ⟨(), [m], s, sends_send m s, fun sent n hn => ?_⟩
  have hlen : (sent ++ [m]).length = sent.length + 1 := List.length_append
  split
  · rename_i hroom
    have hstays : gone (⟨s, sent, some n⟩ : Outbox σ φ) = false := by
      simp only [gone, Option.any_some, decide_eq_false_iff_not]
      omega
    rw [send, hstays]
    rfl
  · rename_i hroom
    have hn' : n = sent.length := by omega
    have hgone : gone (⟨s, sent, some n⟩ : Outbox σ φ) = true := by
      simp only [gone, Option.any_some, decide_eq_true_eq]
      omega
    refine ⟨s, ?_⟩
    rw [send, hgone, hn', List.take_left]
    rfl

theorem cuts_bind {m : Sending σ φ α} {f : α → Sending σ φ β} (hm : Cuts m) (hf : ∀ a, Cuts (f a)) :
    Cuts (m >>= f) := by
  intro s
  obtain ⟨a, more₁, s₁, hsends₁, hcut₁⟩ := hm s
  obtain ⟨b, more₂, s₂, hsends₂, hcut₂⟩ := hf a s₁
  refine ⟨b, more₁ ++ more₂, s₂, hsends₁.bind hsends₂, fun sent n hn => ?_⟩
  have hfirst := hcut₁ sent n hn
  rw [← List.append_assoc]
  by_cases hlen₁ : (sent ++ more₁).length ≤ n
  · rw [if_pos hlen₁] at hfirst
    rw [bind_ok f hfirst]
    exact hcut₂ _ n hlen₁
  · rw [if_neg hlen₁] at hfirst
    obtain ⟨s'', hfirst⟩ := hfirst
    have hall : ¬ (sent ++ more₁ ++ more₂).length ≤ n := by
      rw [List.length_append]
      omega
    rw [if_neg hall, List.take_append_of_le_length (Nat.le_of_not_le hlen₁)]
    exact ⟨s'', bind_error f hfirst⟩

theorem cuts_forM {f : β → Sending σ φ Unit} (hf : ∀ b, Cuts (f b)) (xs : List β) : Cuts (xs.forM f) := by
  induction xs with
  | nil => exact cuts_pure ()
  | cons x xs ih => exact cuts_bind (hf x) fun _ => ih

/-- A step that goes on whatever became of its messages: a receiver who leaves has the first
of them. -/
def Follows (F : Outbox σ φ → Outbox σ φ) : Prop := ∀ s, ∃ more s', ∀ sent,
  F ⟨s, sent, none⟩ = ⟨s', sent ++ more, none⟩ ∧ ∀ n, sent.length ≤ n →
    ∃ s'', F ⟨s, sent, some n⟩ = ⟨s'', (sent ++ more).take n, some n⟩ ∧
      ((sent ++ more).length ≤ n → s'' = s')

theorem follows_attempt {m : Sending σ φ α} (hm : Cuts m) : Follows (attempt m) := by
  intro s
  obtain ⟨a, more, s', hsends, hcut⟩ := hm s
  refine ⟨more, s', fun sent => ⟨hsends.attempt sent, fun n hn => ?_⟩⟩
  have hcut := hcut sent n hn
  split at hcut
  · rename_i hlen
    exact ⟨s', by rw [attempt, hcut, List.take_of_length_le hlen], fun _ => rfl⟩
  · rename_i hlen
    obtain ⟨s'', hcut⟩ := hcut
    exact ⟨s'', by rw [attempt, hcut], fun h => absurd h hlen⟩

/-- A receiver that has left gets nothing more. -/
theorem Follows.gone {F : Outbox σ φ → Outbox σ φ} (hF : Follows F) (s : σ) {sent : List φ}
    (hlen : sent.length = n) :
    ∃ s'', F ⟨s, sent, some n⟩ = ⟨s'', sent, some n⟩ := by
  obtain ⟨more, s', hcut⟩ := hF s
  obtain ⟨s'', hlast, -⟩ := (hcut sent).2 n (Nat.le_of_eq hlen)
  refine ⟨s'', ?_⟩
  rw [hlast, List.take_left' hlen]

theorem follows_comp {F G : Outbox σ φ → Outbox σ φ} (hF : Follows F) (hG : Follows G) :
    Follows (fun o => G (F o)) := by
  intro s
  obtain ⟨more₁, s₁, hcut₁⟩ := hF s
  obtain ⟨more₂, s₂, hcut₂⟩ := hG s₁
  refine ⟨more₁ ++ more₂, s₂, fun sent => ⟨?_, fun n hn => ?_⟩⟩
  · dsimp only
    rw [(hcut₁ sent).1, (hcut₂ _).1, List.append_assoc]
  · obtain ⟨t, hfirst, hsame⟩ := (hcut₁ sent).2 n hn
    dsimp only
    rw [hfirst, ← List.append_assoc]
    by_cases hlen : (sent ++ more₁).length ≤ n
    · obtain rfl := hsame hlen
      rw [List.take_of_length_le hlen]
      exact (hcut₂ _).2 n hlen
    · have hfull : ((sent ++ more₁).take n).length = n := by
        rw [List.length_take]
        omega
      obtain ⟨t', hlast⟩ := hG.gone t hfull
      refine ⟨t', ?_, fun h => absurd h ?_⟩
      · rw [hlast, List.take_append_of_le_length (Nat.le_of_not_le hlen)]
      · rw [List.length_append]
        omega

theorem follows_own {F : σ → Outbox σ φ → Outbox σ φ} (hF : ∀ s, Follows (F s)) :
    Follows (fun o => F o.own o) := fun s => hF s s

theorem follows_id : Follows (fun o : Outbox σ φ => o) := by
  intro s
  refine ⟨[], s, fun sent => ⟨by rw [List.append_nil], fun n hn => ⟨s, ?_, fun _ => rfl⟩⟩⟩
  rw [List.append_nil, List.take_of_length_le hn]

theorem follows_foldl {F : β → Outbox σ φ → Outbox σ φ} (hF : ∀ b, Follows (F b)) (xs : List β) :
    Follows (fun o => xs.foldl (fun o x => F x o) o) := by
  induction xs with
  | nil => exact follows_id
  | cons x xs ih => exact follows_comp (hF x) ih

/-- Beside the outbox of a receiver that stays, the one of a receiver that takes `n`. -/
structure Cut (n : Nat) (o o' : Outbox σ φ) : Prop where
  stays : o.takes = none
  takes : o'.takes = some n
  sent : o'.sent = o.sent.take n
  own : o.sent.length ≤ n → o'.own = o.own

theorem Cut.same {o o' : Outbox σ φ} (h : Cut n o o') (hlen : o.sent.length ≤ n) : o' = ⟨o.own, o.sent, some n⟩ := by
  cases o' with
  | mk own sent takes =>
    obtain rfl : own = o.own := h.own hlen
    obtain rfl : sent = o.sent := h.sent.trans (List.take_of_length_le hlen)
    obtain rfl : takes = some n := h.takes
    rfl

theorem Cut.full {o o' : Outbox σ φ} (h : Cut n o o') (hlen : ¬ o.sent.length ≤ n) : o'.sent.length = n := by
  rw [h.sent, List.length_take]
  omega

/-- Once the receiver has left, all that counts is that nothing is taken back. -/
theorem Cut.grows {o o' o₁ o₁' : Outbox σ φ} (h : Cut n o o') (hlen : ¬ o.sent.length ≤ n)
    (hgrows : ∃ more, o₁.sent = o.sent ++ more) (hstays : o₁.takes = none) (hsent : o₁'.sent = o'.sent)
    (htakes : o₁'.takes = some n) : Cut n o₁ o₁' := by
  obtain ⟨more, hmore⟩ := hgrows
  refine ⟨hstays, htakes, ?_, fun hall => absurd hall ?_⟩
  · rw [hsent, h.sent, hmore, List.take_append_of_le_length (Nat.le_of_not_le hlen)]
  · rw [hmore, List.length_append]
    omega

/-- Then the two may even do different things. -/
theorem Follows.apart {F G : Outbox σ φ → Outbox σ φ} (hF : Follows F) (hG : Follows G) {o o' : Outbox σ φ}
    (h : Cut n o o') (hlen : ¬ o.sent.length ≤ n) : Cut n (F o) (G o') := by
  obtain ⟨s, sent, takes⟩ := o
  obtain ⟨t, sent', takes'⟩ := o'
  obtain rfl : takes = none := h.stays
  obtain rfl : takes' = some n := h.takes
  obtain ⟨more, s', hcut⟩ := hF s
  obtain ⟨t', hrun⟩ := hG.gone t (h.full hlen)
  refine h.grows hlen ⟨more, ?_⟩ ?_ ?_ ?_
  · rw [(hcut sent).1]
  · rw [(hcut sent).1]
  · rw [hrun]
  · rw [hrun]

theorem Follows.cut {F : Outbox σ φ → Outbox σ φ} (hF : Follows F) {o o' : Outbox σ φ} (h : Cut n o o') :
    Cut n (F o) (F o') := by
  by_cases hlen : o.sent.length ≤ n
  · obtain ⟨s, sent, takes⟩ := o
    obtain rfl : takes = none := h.stays
    obtain ⟨more, s', hcut⟩ := hF s
    obtain ⟨s'', hrun, hown⟩ := (hcut sent).2 n hlen
    rw [h.same hlen, (hcut sent).1, hrun]
    exact ⟨rfl, rfl, rfl, hown⟩
  · exact hF.apart hF h hlen

end Outbox
end Flambeau.Systems
