import Mathlib.Data.List.TakeWhile
import Basecoin.Modules.Amounts

/-!
# `modules/src/bank/util.rs`: a coin as text

`Coin::from_str` reads the amount and then the denomination, and takes the first alphabetic
character for what separates the two. A separator belongs to neither piece: the first letter of
every denomination is lost (`fromStr_append_eq_ok_iff`). The amount is read by the same
`U256::from_str` as in `From<&MsgCoin>`, in base sixteen.

Each of the two would be enough to miss the text `10basecoin`, and the first one is missed by every
text: the denomination that comes back is shorter than the one that was written, whatever the
amount (`fromStr_never_faithful`). What `from_str` does give back is in `fromStr_eq`. A text without
an alphabetic character is one piece, so there is no denomination and it is refused. Of
`char::is_alphabetic` only its ASCII part is asked for, since only digits have to be told from it.
-/

namespace Basecoin

/-- What the parser takes from outside. -/
class CoinText where
  /-- `char::is_alphabetic`. -/
  isAlphabetic : Char → Bool
  /-- The error of `U256::from_str` on a text, as `Debug` prints it. -/
  parseError : String → String

/-- On ASCII characters the alphabetic ones are the letters. -/
def CoinText.Documented [CoinText] : Prop :=
  ∀ c : Char, c.val < 128 → CoinText.isAlphabetic c = c.isAlpha

/-- `splitn(2, ..)`: one piece, or those before and after the first separator. -/
def splitn2 (isSeparator : Char → Bool) (s : String) : List String :=
  match s.toList.dropWhile fun c => !isSeparator c with
  | [] => [s]
  | _ :: rest => [String.ofList (s.toList.takeWhile fun c => !isSeparator c), String.ofList rest]

/-- `FromStr for Coin`. -/
def Coin.fromStr [Bech32] [BankHost] [CoinText] (s : String) : Except Error Coin :=
  let split := splitn2 CoinText.isAlphabetic s
  match split[0]? with
  | none => .error (.custom "missing amount")
  | some text =>
    match BankHost.parseAmount text with
    | none => .error (.custom ("failed to parse amount: " ++ CoinText.parseError text))
    | some amount =>
      match split[1]? with
      | none => .error (.custom "missing denom")
      | some denom => .ok { denom := ⟨denom⟩, amount }

section Split

variable {isSeparator : Char → Bool}

theorem splitn2_append {before rest : List Char} {c : Char}
    (hbefore : ∀ a ∈ before, isSeparator a = false) (hc : isSeparator c = true) :
    splitn2 isSeparator (String.ofList (before ++ c :: rest)) =
      [String.ofList before, String.ofList rest] := by
  have hkeep : ∀ a ∈ before, !isSeparator a := fun a ha => by rw [hbefore a ha]; rfl
  have hstop : ¬ (!isSeparator c) = true := by rw [hc]; exact Bool.false_ne_true
  rw [splitn2, String.toList_ofList, List.dropWhile_append_of_pos hkeep,
    List.takeWhile_append_of_pos hkeep,
    List.dropWhile_cons_of_neg (p := fun c => !isSeparator c) hstop,
    List.takeWhile_cons_of_neg (p := fun c => !isSeparator c) hstop, List.append_nil]

theorem splitn2_of_forall {s : String} (h : ∀ a ∈ s.toList, isSeparator a = false) :
    splitn2 isSeparator s = [s] := by
  have hnil : s.toList.dropWhile (fun c => !isSeparator c) = [] :=
    List.dropWhile_eq_nil_iff.mpr fun a ha => by rw [h a ha]; rfl
  rw [splitn2, hnil]

end Split

/-! ## What is read -/

section Read

variable [Bech32] [BankHost] [CoinText]

omit [Bech32] [BankHost] in
/-- A digit is no letter, so it does not end the amount. -/
theorem CoinText.Documented.isAlphabetic_of_isDigit (h : CoinText.Documented) {c : Char}
    (hc : c.isDigit) : CoinText.isAlphabetic c = false := by
  have hbounds : 48 ≤ c.val ∧ c.val ≤ 57 := by
    simpa [Char.isDigit] using hc
  have hletters : c.isAlpha =
      (decide (c.val ≥ 65 ∧ c.val ≤ 90) || (decide (c.val ≥ 97) && decide (c.val ≤ 122))) := rfl
  rw [h c (by grind), hletters]
  grind

namespace Coin

/-- An amount and a denomination, of which the first character is alphabetic: it separates them. -/
theorem fromStr_append_eq_ok_iff (h : CoinText.Documented) {digits rest : List Char} {c : Char}
    {coin : Coin} (hdigits : ∀ a ∈ digits, a.isDigit) (hc : CoinText.isAlphabetic c = true) :
    fromStr (String.ofList (digits ++ c :: rest)) = .ok coin ↔
      BankHost.parseAmount (String.ofList digits) = some coin.amount ∧
        coin.denom = ⟨String.ofList rest⟩ := by
  have hsplit : splitn2 CoinText.isAlphabetic (String.ofList (digits ++ c :: rest)) =
      [String.ofList digits, String.ofList rest] :=
    splitn2_append (fun a ha => h.isAlphabetic_of_isDigit (hdigits a ha)) hc
  rw [fromStr, hsplit]
  dsimp only [List.getElem?_cons_zero, List.getElem?_cons_succ]
  cases BankHost.parseAmount (String.ofList digits) with
  | none => exact iff_of_false nofun fun h => nomatch h.1
  | some amount =>
    rw [Except.ok.injEq, Option.some.injEq]
    constructor
    · rintro rfl
      exact ⟨rfl, rfl⟩
    · rintro ⟨rfl, hdenom⟩
      rw [← hdenom]

/-- A text without an alphabetic character is rejected: it is all amount. -/
theorem fromStr_of_forall {s : String} (hs : ∀ c ∈ s.toList, CoinText.isAlphabetic c = false) :
    ∃ e, fromStr s = .error e := by
  rw [fromStr, splitn2_of_forall hs]
  dsimp only [List.getElem?_cons_zero]
  cases BankHost.parseAmount s with
  | none => exact ⟨_, rfl⟩
  | some amount => exact ⟨_, rfl⟩

/-- **The text of a coin is never read faithfully.** Of no amount and denomination does `from_str`
give the two back, the denomination being one letter short; texts without a letter it does reject. -/
theorem fromStr_never_faithful (h : CoinText.Documented) :
    (∀ (digits denom : List Char) (amount : U256), digits ≠ [] → (∀ c ∈ digits, c.isDigit) →
        Nat.ofDigitChars 10 digits 0 = amount.toNat →
        (∃ c rest, denom = c :: rest ∧ CoinText.isAlphabetic c = true) →
        fromStr (String.ofList (digits ++ denom)) ≠ .ok ⟨⟨String.ofList denom⟩, amount⟩) ∧
      ∀ s : String, (∀ c ∈ s.toList, CoinText.isAlphabetic c = false) → ∃ e, fromStr s = .error e := by
  refine ⟨?_, fun s hs => fromStr_of_forall hs⟩
  rintro digits _ amount - hdigits - ⟨c, rest, rfl, hc⟩ hok
  have hdenom := ((fromStr_append_eq_ok_iff h hdigits hc).mp hok).2
  have hlist : c :: rest = rest := String.ofList_injective (Denom.mk.inj hdenom)
  exact List.cons_ne_self c rest hlist

/-- What it gives instead is the amount's digits read in base sixteen. -/
theorem fromStr_eq [U256Text] (h : CoinText.Documented) (hu : U256Text.Documented)
    {digits rest : List Char} {c : Char} {amount : U256} (hne : digits ≠ [])
    (hdigits : ∀ a ∈ digits, a.isDigit) (hc : CoinText.isAlphabetic c = true)
    (hamount : Nat.ofDigitChars 16 digits 0 = amount.toNat) :
    fromStr (String.ofList (digits ++ c :: rest)) = .ok ⟨⟨String.ofList rest⟩, amount⟩ :=
  (fromStr_append_eq_ok_iff h hdigits hc).mpr
    ⟨hu.parseAmount_eq digits amount hne hdigits hamount, rfl⟩

end Coin

end Read

/-! ## Ten coins -/

section Ten

local instance tenBech32 : Bech32 := Bech32.any

local instance tenBankHost : BankHost :=
  { codec := Codec.ofEncodable _
    decodeMsgSend := fun _ => none
    parseAmount := readText 16 }

local instance tenCoinText : CoinText := ⟨Char.isAlpha, fun _ => "InvalidCharacter"⟩

theorem documented_ten : CoinText.Documented := fun _ _ => rfl

/-- They become sixteen, of a denomination one letter short. -/
theorem fromStr_ten :
    Coin.fromStr "10basecoin" = .ok ⟨⟨"asecoin"⟩, ⟨16, by omega⟩⟩ ∧
      Coin.fromStr "10basecoin" ≠ .ok ⟨⟨"basecoin"⟩, ⟨10, by omega⟩⟩ := by
  decide +kernel

theorem fromStr_never_faithful_ten :
    (∀ (digits denom : List Char) (amount : U256), digits ≠ [] → (∀ c ∈ digits, c.isDigit) →
        Nat.ofDigitChars 10 digits 0 = amount.toNat →
        (∃ c rest, denom = c :: rest ∧ CoinText.isAlphabetic c = true) →
        Coin.fromStr (String.ofList (digits ++ denom)) ≠ .ok ⟨⟨String.ofList denom⟩, amount⟩) ∧
      ∀ s : String, (∀ c ∈ s.toList, CoinText.isAlphabetic c = false) →
        ∃ e, Coin.fromStr s = .error e :=
  Coin.fromStr_never_faithful documented_ten

end Ten

end Basecoin
