import Flambeau.Json.Document

namespace Flambeau.Json

/-- The bytes `es` with whitespace let in between them. -/
inductive Spread : Bytes → Bytes → Prop where
  | nil : Spread [] []
  | ws : isWs b = true → Spread (e :: es) t → Spread (e :: es) (b :: t)
  | take : isWs e = false → Spread es t → Spread (e :: es) (e :: t)

/-- A string body read with whitespace let in anywhere, tabs and line ends
included; `escape` and `u` are what the bytes before it left open. -/
inductive Body : Bool → Nat → Bytes → Prop where
  | nil : Body false 0 []
  | ws : isWs b = true → Body escape u t → Body escape u (b :: t)
  | hex : isHexDigit b = true → Body escape u t → Body escape (u + 1) (b :: t)
  | escaped : isEscape b = true → Body false 0 t → Body true 0 (b :: t)
  | unicode : Body false 4 t → Body true 0 (0x75 :: t)
  | backslash : Body true 0 t → Body false 0 (0x5C :: t)
  | plain : 0x20 ≤ b → b ≠ 0x22 → b ≠ 0x5C → Body false 0 t → Body false 0 (b :: t)

/-- A literal with whitespace let in after its first byte. -/
def SpreadLiteral (tok : Bytes) : Prop :=
  ∃ e es t, IsLiteral (e :: es) ∧ tok = e :: t ∧ Spread es t

/-- A loose number; an exponent is left open only where whitespace follows. -/
def LooseNumber (tok : Bytes) (next : Option UInt8) : Prop :=
  ∃ n : Num, n.Loose ∧ n.bytes = tok ∧ (n.openExp → ∃ b, next = some b ∧ isWs b = true)

def RelaxedLeaf : Doc → Option UInt8 → Prop
  | .lit tok, _ => SpreadLiteral tok
  | .num tok, next => LooseNumber tok next
  | .str body, _ => Body false 0 body
  | _, _ => False

/-- JSON with whitespace let into its tokens, loose numbers and trailing commas. -/
def relaxed : Grammar Unit Unit where
  leaf _ := RelaxedLeaf
  arr _ _ := True
  obj _ _ := True
  entry _ key _ _ := Body false 0 key
  close _ := True
  comma _ := True
  trailing := true

theorem looseNumber_first (h : LooseNumber w next) :
    ∃ b t, w = b :: t ∧ (isDigit b = true ∨ b = 0x2D) := by
  obtain ⟨n, hn, rfl, -⟩ := h
  exact num_first hn

theorem spread_self (h : ∀ e ∈ es, isWs e = false) : Spread es es := by
  induction es with
  | nil => exact .nil
  | cons e es ih =>
    exact .take (h e List.mem_cons_self) (ih (fun b hb => h b (List.mem_cons_of_mem e hb)))

theorem literal_spread (h : IsLiteral w) : SpreadLiteral w := by
  rcases h with rfl | rfl | rfl
  · exact ⟨_, _, _, .inl rfl, rfl, spread_self (by decide)⟩
  · exact ⟨_, _, _, .inr (.inl rfl), rfl, spread_self (by decide)⟩
  · exact ⟨_, _, _, .inr (.inr rfl), rfl, spread_self (by decide)⟩

theorem chars_body (h : Chars t) : Body false 0 t := by
  induction h with
  | nil => exact .nil
  | plain hge hq hs _ ih => exact .plain hge hq hs ih
  | escape he _ ih => exact .backslash (.escaped he ih)
  | unicode ha hb hc hd _ ih =>
    exact .backslash (.unicode (.hex ha (.hex hb (.hex hc (.hex hd ih)))))

theorem rfc_relaxed : Sim rfc8259 relaxed (fun _ _ => True) (fun _ _ => True) where
  leaf := by
    intro v v' d next _ hd
    refine ok_of_leaf ?_
    cases d with
    | lit w => exact literal_spread hd
    | num w =>
      obtain ⟨n, hn, hb⟩ := hd
      exact ⟨n, hn.toLoose, hb, fun ho => absurd ho hn.exp_digits⟩
    | str body => exact chars_body hd
    | arr items => exact hd.elim
    | obj members => exact hd.elim
  arr _ _ := ⟨(), trivial, trivial⟩
  obj _ _ := ⟨(), trivial, trivial⟩
  entry _ h := ⟨(), (), chars_body h, trivial, trivial⟩
  close _ h := h
  comma _ h := h
  trailing := fun h => by cases h

end Flambeau.Json
