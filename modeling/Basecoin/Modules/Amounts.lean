import Basecoin.Modules.Exact

/-!
# `modules/src/bank/util.rs`: amounts as text

An amount is printed and read again wherever a coin crosses a crate boundary. `ProtoCoin` carries
it as a decimal text, and both directions of that conversion are decimal. `From<&MsgCoin>` prints
the `u128` in decimal and parses the text with `U256::from_str`, which reads hexadecimal: what it
gets is `hexReading`, the number of the same digits in base sixteen, and that is the amount itself
only while it has one digit (`hexReading_eq_iff`).

The reading is never less than the amount (`le_hexReading`), and that of a `u128` fits the 256 bits
(`hexReading_u128`), so a `MsgSend` is not refused for how it is read: it moves too much.
-/

namespace Basecoin

/-! ## Decimal digits, read in base sixteen -/

/-- The decimal digits of a number, read as hexadecimal ones. -/
def hexReading (n : Nat) : Nat := Nat.ofDigitChars 16 (Nat.toDigits 10 n) 0

theorem hexReading_of_lt {n : Nat} (h : n < 10) : hexReading n = n := by
  rw [hexReading, Nat.toDigits_of_lt_base h, Nat.ofDigitChars_cons_digitChar_of_lt_ten h,
    Nat.ofDigitChars_nil, Nat.mul_zero, Nat.zero_add]

theorem hexReading_of_ge {n : Nat} (h : 10 ≤ n) :
    hexReading n = 16 * hexReading (n / 10) + n % 10 := by
  have hdigit : n % 10 < 10 := Nat.mod_lt n (by omega)
  rw [hexReading, Nat.toDigits_of_base_le (by omega) h, Nat.ofDigitChars_append,
    Nat.ofDigitChars_cons_digitChar_of_lt_ten hdigit, Nat.ofDigitChars_nil, hexReading]

theorem le_hexReading (n : Nat) : n ≤ hexReading n := by
  induction n using Nat.strong_induction_on with
  | _ n ih =>
    rcases Nat.lt_or_ge n 10 with h | h
    · rw [hexReading_of_lt h]
    · have hrest := ih (n / 10) (by omega)
      rw [hexReading_of_ge h]
      omega

theorem lt_hexReading {n : Nat} (h : 10 ≤ n) : n < hexReading n := by
  have hrest := le_hexReading (n / 10)
  rw [hexReading_of_ge h]
  omega

theorem hexReading_eq_iff {n : Nat} : hexReading n = n ↔ n < 10 := by
  constructor
  · intro heq
    by_contra h
    exact (lt_hexReading (Nat.le_of_not_lt h)).ne' heq
  · exact hexReading_of_lt

/-- As many digits, each worth less than sixteen. -/
theorem hexReading_lt {k n : Nat} (hk : 0 < k) (h : n < 10 ^ k) : hexReading n < 16 ^ k := by
  induction k generalizing n with
  | zero => exact absurd hk (Nat.lt_irrefl 0)
  | succ k ih =>
    rcases Nat.lt_or_ge n 10 with hn | hn
    · rw [hexReading_of_lt hn, Nat.pow_succ]
      have hpos : 0 < 16 ^ k := Nat.pow_pos (by omega)
      omega
    · have hk' : 0 < k := by
        rcases Nat.eq_zero_or_pos k with rfl | hk'
        · omega
        · exact hk'
      have hrest := ih hk' (n := n / 10) (by rw [Nat.pow_succ] at h; omega)
      rw [hexReading_of_ge hn, Nat.pow_succ]
      omega

theorem hexReading_u128 {n : Nat} (h : n < 2 ^ 128) : hexReading n < 2 ^ 256 := by
  have hlt := hexReading_lt (k := 39) (by omega) (show n < 10 ^ 39 by omega)
  omega

/-! ## `primitive_types::U256` and text -/

/-- The two conversions of `U256` that `BankHost` does not have. -/
class U256Text where
  /-- `Display`. -/
  display : U256 → String
  /-- `from_str_radix(_, 10)`, or the text of its error. -/
  fromStrRadix : String → Except String U256

section Documented

variable [Bech32] [BankHost] [U256Text]

/-- What the crate documents of the three conversions: `Display` is decimal, `from_str_radix` reads
in the radix it is given, `FromStr` reads hexadecimal. Only texts of the digits 0 to 9 are asked
about. -/
structure U256Text.Documented : Prop where
  display_eq : ∀ a : U256, U256Text.display a = toString a.toNat
  fromStrRadix_eq : ∀ (digits : List Char) (a : U256), digits ≠ [] → (∀ c ∈ digits, c.isDigit) →
    Nat.ofDigitChars 10 digits 0 = a.toNat → U256Text.fromStrRadix (String.ofList digits) = .ok a
  parseAmount_eq : ∀ (digits : List Char) (a : U256), digits ≠ [] → (∀ c ∈ digits, c.isDigit) →
    Nat.ofDigitChars 16 digits 0 = a.toNat → BankHost.parseAmount (String.ofList digits) = some a

theorem U256Text.Documented.fromStrRadix_toString (h : U256Text.Documented) (a : U256) :
    U256Text.fromStrRadix (toString a.toNat) = .ok a := by
  rw [Nat.toString_eq_ofList_toDigits]
  exact h.fromStrRadix_eq _ a Nat.toDigits_ne_nil
    (fun c hc => Nat.isDigit_of_mem_toDigits (by omega) (by omega) hc) Nat.ofDigitChars_ten_toDigits

theorem U256Text.Documented.parseAmount_toString (h : U256Text.Documented) {n : Nat}
    (hn : n < 2 ^ 128) :
    BankHost.parseAmount (toString n) = some ⟨hexReading n, hexReading_u128 hn⟩ := by
  rw [Nat.toString_eq_ofList_toDigits]
  exact h.parseAmount_eq _ _ Nat.toDigits_ne_nil
    (fun c hc => Nat.isDigit_of_mem_toDigits (by omega) (by omega) hc) rfl

end Documented

/-! ## The routes -/

/-- `ibc_proto::cosmos::base::v1beta1::Coin`. -/
structure ProtoCoin where
  denom : String
  amount : String
deriving DecidableEq

section Routes

variable [Bech32] [U256Text]

/-- `TryFrom<ProtoCoin> for Coin`. -/
def Coin.tryFromProto (raw : ProtoCoin) : Except Error Coin :=
  match U256Text.fromStrRadix raw.amount with
  | .error e => .error (.custom e)
  | .ok amount => .ok { denom := ⟨raw.denom⟩, amount }

omit [Bech32] in
/-- `From<Coin> for ProtoCoin`. -/
def ProtoCoin.ofCoin (value : Coin) : ProtoCoin :=
  { denom := value.denom.name, amount := U256Text.display value.amount }

variable [BankHost]

theorem Coin.tryFromProto_toString (h : U256Text.Documented) (d : String) (a : U256) :
    Coin.tryFromProto ⟨d, toString a.toNat⟩ = .ok { denom := ⟨d⟩, amount := a } := by
  simp only [Coin.tryFromProto, h.fromStrRadix_toString]

theorem Coin.tryFromProto_ofCoin (h : U256Text.Documented) (c : Coin) :
    Coin.tryFromProto (ProtoCoin.ofCoin c) = .ok c := by
  rw [ProtoCoin.ofCoin, h.display_eq]
  exact Coin.tryFromProto_toString h c.denom.name c.amount

omit [Bech32] [U256Text] [BankHost] in
/-- The coin that is made of a message's coin. -/
def MsgCoin.hexCoin (coin : MsgCoin) : Coin :=
  { denom := ⟨coin.denom⟩, amount := ⟨hexReading coin.amount, hexReading_u128 coin.lt⟩ }

theorem Coin.ofMsgCoin_eq (h : U256Text.Documented) (coin : MsgCoin) :
    Coin.ofMsgCoin coin = some coin.hexCoin := by
  rw [Coin.ofMsgCoin, h.parseAmount_toString coin.lt]
  rfl

theorem mapM_ofMsgCoin (h : U256Text.Documented) (coins : List MsgCoin) :
    coins.mapM Coin.ofMsgCoin = some (coins.map MsgCoin.hexCoin) := by
  induction coins with
  | nil => rfl
  | cons c cs ih => rw [List.mapM_cons, Coin.ofMsgCoin_eq h, ih, List.map_cons]; rfl

end Routes

/-! ## What a message moves -/

/-- The amount a message writes for a denomination. -/
def writtenTotal : List MsgCoin → Denom → Nat
  | [], _ => 0
  | c :: cs, d => (if (⟨c.denom⟩ : Denom) = d then c.amount else 0) + writtenTotal cs d

theorem total_map_hexCoin_cons (c : MsgCoin) (cs : List MsgCoin) (d : Denom) :
    Coins.total ((c :: cs).map MsgCoin.hexCoin) d =
      (if (⟨c.denom⟩ : Denom) = d then hexReading c.amount else 0) +
        Coins.total (cs.map MsgCoin.hexCoin) d := rfl

theorem writtenTotal_le (coins : List MsgCoin) (d : Denom) :
    writtenTotal coins d ≤ Coins.total (coins.map MsgCoin.hexCoin) d := by
  induction coins with
  | nil => exact le_rfl
  | cons c cs ih =>
    have hc := le_hexReading c.amount
    rw [writtenTotal, total_map_hexCoin_cons]
    split <;> omega

theorem total_hexCoin_eq_iff (coins : List MsgCoin) :
    (∀ d, Coins.total (coins.map MsgCoin.hexCoin) d = writtenTotal coins d) ↔
      ∀ c ∈ coins, c.amount < 10 := by
  induction coins with
  | nil => exact iff_of_true (fun _ => rfl) fun c hc => absurd hc List.not_mem_nil
  | cons c cs ih =>
    rw [List.forall_mem_cons, ← ih, ← hexReading_eq_iff]
    constructor
    · intro h
      -- no term can make up for another, each is at least what is written
      have hc := le_hexReading c.amount
      refine ⟨?_, fun d => ?_⟩
      · have hd := h ⟨c.denom⟩
        have hrest := writtenTotal_le cs ⟨c.denom⟩
        rw [writtenTotal, total_map_hexCoin_cons, if_pos rfl, if_pos rfl] at hd
        omega
      · have hd := h d
        have hrest := writtenTotal_le cs d
        rw [writtenTotal, total_map_hexCoin_cons] at hd
        split at hd <;> omega
    · rintro ⟨hc, hrest⟩ d
      rw [writtenTotal, total_map_hexCoin_cons, hc, hrest d]

/-! ## Delivery -/

namespace Bank

variable [Sha256] [Bech32] [BankHost] [AuthCodec] [U256Text]

/-- The message took from its sender and gave its receiver exactly what it writes. -/
def MovesWritten (s s' : InMemoryStore) (message : MsgSend) : Prop :=
  ∀ d, balance s' message.fromAddress d + writtenTotal message.amount d =
      balance s message.fromAddress d ∧
    balance s' message.toAddress d =
      balance s message.toAddress d + writtenTotal message.amount d

/-- A message between two accounts that goes through moves its amounts' hexadecimal readings. -/
theorem deliver_moves (h : U256Text.Documented) {accounts s s' : InMemoryStore} {any : Any}
    {message : MsgSend} {events : List Event} (hdecode : decode any = .ok message)
    (hne : message.fromAddress ≠ message.toAddress)
    (hdeliver : deliver accounts any s = some (.ok events, s')) :
    SendExact s s' message.fromAddress message.toAddress (message.amount.map MsgCoin.hexCoin)
      (.ok ()) := by
  unfold deliver at hdeliver
  rw [hdecode] at hdeliver
  dsimp only at hdeliver
  cases hacc : Auth.getAccount accounts message.fromAddress with
  | none =>
    rw [hacc] at hdeliver
    simp at hdeliver
  | some account =>
    rw [hacc] at hdeliver
    dsimp only at hdeliver
    rw [mapM_ofMsgCoin h, Option.bind_some] at hdeliver
    obtain ⟨r, t, hsend, hexact⟩ :=
      sendCoins_exact s hne (message.amount.map MsgCoin.hexCoin)
    rw [hsend, Option.map_some, Option.some.injEq] at hdeliver
    cases r with
    | error e => simp at hdeliver
    | ok =>
      obtain ⟨-, rfl⟩ := Prod.mk.inj hdeliver
      exact hexact

/-- **Amounts mean the same number on the proto routes, and on the message route exactly below
ten.** With the conversions of `U256` as documented: a `MsgCoin` always converts, to its own amount
if and only if that has one decimal digit; a decimal text in a `ProtoCoin` reads as its number,
and a coin comes back from its `ProtoCoin`; and a delivered message between two accounts moves the
amounts it writes if and only if all of them have one digit. -/
theorem amounts_iff (h : U256Text.Documented) :
    (∀ coin : MsgCoin, ∃ c, Coin.ofMsgCoin coin = some c ∧ c.denom = ⟨coin.denom⟩ ∧
      (c.amount.toNat = coin.amount ↔ coin.amount < 10)) ∧
    (∀ (d : String) (n : Nat), n < 2 ^ 128 →
      ∃ c, Coin.tryFromProto ⟨d, toString n⟩ = .ok c ∧ c.denom = ⟨d⟩ ∧ c.amount.toNat = n) ∧
    (∀ c : Coin, Coin.tryFromProto (ProtoCoin.ofCoin c) = .ok c) ∧
    ∀ (accounts s s' : InMemoryStore) (any : Any) (message : MsgSend) (events : List Event),
      decode any = .ok message → message.fromAddress ≠ message.toAddress →
      deliver accounts any s = some (.ok events, s') →
      (MovesWritten s s' message ↔ ∀ coin ∈ message.amount, coin.amount < 10) := by
  refine ⟨fun coin => ?_, fun d n hn => ?_, Coin.tryFromProto_ofCoin h, ?_⟩
  · exact ⟨coin.hexCoin, Coin.ofMsgCoin_eq h coin, rfl, hexReading_eq_iff⟩
  · have hlt : n < 2 ^ 256 := by omega
    exact ⟨_, Coin.tryFromProto_toString h d ⟨n, hlt⟩, rfl, rfl⟩
  · intro accounts s s' any message events hdecode hne hdeliver
    have hexact := deliver_moves h hdecode hne hdeliver
    rw [← total_hexCoin_eq_iff]
    constructor
    · intro hmoves d
      have hcredited := hexact.credited rfl d
      have hwritten := (hmoves d).2
      omega
    · intro htotal d
      have hdebited := hexact.debited rfl d
      have hcredited := hexact.credited rfl d
      rw [htotal] at hdebited hcredited
      exact ⟨hdebited, hcredited⟩

end Bank

/-! ## A hundred coins -/

section Hundred

local instance hundredSha256 : Sha256 := Sha256.ones

local instance hundredBech32 : Bech32 := Bech32.any

/-- The number of a text of decimal digits, read in a base. -/
def readText (base : Nat) (text : String) : Option U256 :=
  if text.toList ≠ [] ∧ text.toList.all Char.isDigit then
    if h : Nat.ofDigitChars base text.toList 0 < 2 ^ 256 then
      some ⟨Nat.ofDigitChars base text.toList 0, h⟩
    else none
  else none

local instance hundredBankHost : BankHost :=
  { codec := Codec.ofEncodable _
    decodeMsgSend := fun _ => none
    parseAmount := readText 16 }

local instance hundredAuthCodec : AuthCodec := ⟨Codec.ofEncodable _⟩

local instance hundredU256Text : U256Text :=
  { display := fun a => toString a.toNat
    fromStrRadix := fun text => (readText 10 text).elim (.error "invalid digit") .ok }

theorem readText_ofList {base : Nat} {digits : List Char} {a : U256} (hne : digits ≠ [])
    (hdigits : ∀ c ∈ digits, c.isDigit) (ha : Nat.ofDigitChars base digits 0 = a.toNat) :
    readText base (String.ofList digits) = some a := by
  rw [readText, String.toList_ofList, if_pos ⟨hne, List.all_eq_true.mpr hdigits⟩,
    dif_pos (ha ▸ a.lt)]
  exact congrArg some (U256.toNat_injective ha)

theorem documented_hundred : U256Text.Documented where
  display_eq _ := rfl
  fromStrRadix_eq digits a hne hdigits ha := by
    show (readText 10 (String.ofList digits)).elim _ _ = _
    rw [readText_ofList hne hdigits ha]
    rfl
  parseAmount_eq _ _ hne hdigits ha := readText_ofList hne hdigits ha

def hundred : MsgCoin := ⟨"basecoin", 100, by omega⟩

/-- Conversions as documented are possible: under these a hundred coins of a message convert, and
keep their amount if and only if it is below ten. -/
theorem amounts_iff_hundred : ∃ c, Coin.ofMsgCoin hundred = some c ∧ c.denom = ⟨"basecoin"⟩ ∧
    (c.amount.toNat = 100 ↔ 100 < 10) :=
  (Bank.amounts_iff documented_hundred).1 hundred

/-- They become two hundred and fifty-six. -/
theorem hundred_not_kept : U256Text.Documented ∧
    Coin.ofMsgCoin hundred = some ⟨⟨"basecoin"⟩, ⟨256, by omega⟩⟩ :=
  ⟨documented_hundred, by decide +kernel⟩

end Hundred

end Basecoin
