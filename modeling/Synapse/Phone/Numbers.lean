import Mathlib.Data.List.Basic
import Synapse.Lib.Text

/-!
# Synapse.Phone.Numbers — phone numbers, as a request writes them and as they are stored

`PhoneSMSSender._normalize_phone_number` of `synapse/handlers/phone_verification.py`, `phone_number_to_msisdn` of
`synapse/util/msisdn.py`, and how `PhoneRegistrationTokenServlet` puts them together.

* `PhoneNumbers`: what is used of the library `phonenumbers`.
* `normalizePhoneNumber`: the E.164 number to which a code is sent.
* `tokenMsisdn`: the address under which the number is bound to an account.
-/

namespace Synapse.Phone

open Lib Option

/-- The library `phonenumbers`, and the characters that `\d` matches. -/
structure PhoneNumbers where
  Number : Type
  /-- `\d` -/
  isDecimal : Char → Bool
  /-- `parse(number, region)`; `none` for a `NumberParseException` -/
  parse : Text → Option Text → Option Number
  /-- `is_valid_number` -/
  isValidNumber : Number → Bool
  /-- the country calling code, with the national significant number after it -/
  digits : Number → Text

variable (L : PhoneNumbers)

/-- `format_number(number, PhoneNumberFormat.E164)` -/
def formatE164 (n : L.Number) : Text := '+' :: L.digits n

/-- `re.sub(r'[^\d+]', '', phone_number.strip())`, with a `+` in front of it. -/
def cleanedNumber (phoneNumber : Text) : Text :=
  match (strip phoneNumber).filter fun c => L.isDecimal c || c = '+' with
  | '+' :: t => '+' :: t
  | t => '+' :: t

/-- `^\+[1-9]\d{1,14}$` -/
def isE164 : Text → Bool
  | '+' :: c :: t => decide ('1' ≤ c ∧ c ≤ '9' ∧ 1 ≤ t.length ∧ t.length ≤ 14) && t.all L.isDecimal
  | _ => false

def basicE164Format (phoneNumber : Text) : Option Text :=
  if isE164 L (cleanedNumber L phoneNumber) then some (cleanedNumber L phoneNumber) else none

def normalizePhoneNumber (phoneNumber country : Text) : Option Text :=
  let cleaned := cleanedNumber L phoneNumber
  -- if parsing with the country fails, without
  match L.parse cleaned (some country) <|> L.parse cleaned none with
  | some n => if L.isValidNumber n then some (formatE164 L n) else none
  -- `except Exception`
  | none => basicE164Format L phoneNumber

/-- `none` where the number cannot be parsed. -/
def phoneNumberToMsisdn (country number : Text) : Option Text :=
  (L.parse number (some country)).map fun n => (formatE164 L n).drop 1

/-- The E.164 number of a token request, and its `msisdn`; `none` where the request is refused for one of them. -/
def tokenMsisdn (phoneNumber country : Text) : Option (Text × Text) :=
  (normalizePhoneNumber L phoneNumber country).bind fun phone =>
    if country = [] then some (phone, phone)
    else (phoneNumberToMsisdn L country phoneNumber).map fun msisdn => (phone, msisdn)

end Synapse.Phone
