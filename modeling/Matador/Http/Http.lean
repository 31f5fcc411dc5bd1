import Matador.Json.GenericParser
import Matador.Lib.UnorderedMap

/-!
# Methods, states and contents

The tables of `http`, `mime_types` and the header names, and what requests and responses have in
common. The characters of a byte string are those below 256, and the classes of `<cctype>` are those
of the C locale.
-/

namespace Matador.Http

open Lib Option

abbrev Str := List Char

/-- `t_string_param_map`. -/
abbrev ParamMap := UnorderedMap Str Str

/-! ## Characters -/

/-- `ispunct`; `isalnum`, `isdigit` and `isupper` are those of `Char`. -/
def isPunct (c : Char) : Bool := '!' ≤ c && c ≤ '~' && !c.isAlphanum

def isGraph (c : Char) : Bool := c.isAlphanum || isPunct c

def isPrint (c : Char) : Bool := ' ' ≤ c && c ≤ '~'

theorem isGraph_of_isPrint {c : Char} (h : isPrint c) (hc : c ≠ ' ') : isGraph c := by
  obtain ⟨hle, hge⟩ := Bool.and_eq_true_iff.mp h
  have hlt : '!' ≤ c := by
    have hne : c.toNat ≠ 32 := fun h => hc (Char.ext (UInt32.toNat_inj.mp h))
    have h32 : 32 ≤ c.toNat := of_decide_eq_true hle
    exact show 33 ≤ c.toNat by omega
  unfold isGraph isPunct
  cases c.isAlphanum with
  | true => rfl
  | false => simpa [hlt] using hge

theorem isPrint_of_isDigit {c : Char} (h : c.isDigit) : isPrint c := by
  obtain ⟨hle, hge⟩ := Bool.and_eq_true_iff.mp h
  have h48 : 48 ≤ c.toNat := of_decide_eq_true hle
  have h57 : c.toNat ≤ 57 := of_decide_eq_true hge
  exact Bool.and_eq_true_iff.mpr ⟨decide_eq_true (show 32 ≤ c.toNat by omega),
    decide_eq_true (show c.toNat ≤ 126 by omega)⟩

theorem ne_of_isGraph {c d : Char} (h : isGraph c) (hd : isGraph d = false) : c ≠ d := by
  rintro rfl
  exact absurd (h.symm.trans hd) nofun

theorem isGraph_of_name {c : Char} (h : (c.isAlphanum || c == '-')) : isGraph c := by
  rcases Bool.or_eq_true_iff.mp h with h | h
  · simp [isGraph, h]
  · rw [beq_iff_eq.mp h]
    decide

def isUtf8 (c : Char) : Bool := c.toNat / 128 % 2 == 1

/-- `strchr` finds the terminating NUL, too. -/
def strchr (s : Str) (c : Char) : Bool := s.contains c || c == '\x00'

def urlSpecialChar : Str :=
  ['-', '.', '_', '~', ':', '/', '?', '#', '[', ']', '@', '!', '$', '&', '\'', '(', ')', '*', '+',
    ',', ';', '=']

def hexChar : Str :=
  ['A', 'B', 'C', 'D', 'E', 'F', '0', '1', '2', '3', '4', '5', '6', '7', '8', '9']

def isUrlChar (c : Char) : Bool := c.isAlphanum || strchr urlSpecialChar c

def isHexChar (c : Char) : Bool := c.isAlphanum || strchr hexChar c

theorem ne_blank_of {p : Char → Bool} {c : Char} (h : p c) (hp : p ' ' = false) : c ≠ ' ' := by
  rintro rfl
  rw [hp] at h
  cases h

def httpVersionPrefix : Str := ['H', 'T', 'T', 'P']

theorem letter_ne_first {i : Nat} {c : Char} (hpos : 0 < i) (h : httpVersionPrefix[i]? = some c) :
    ¬ httpVersionPrefix[0]? = some c := by
  match i with
  | 1 | 2 | 3 =>
    cases h
    decide
  | n + 4 => cases h

/-! ## Methods -/

/-- `method_t`. -/
inductive Method
  | unknown | get | post | put | del | options | head
  deriving DecidableEq, Repr

/-- `method_string_map_`. -/
def Method.toString : Method → Str
  | .get => "GET".toList
  | .post => "POST".toList
  | .put => "PUT".toList
  | .del => "DELETE".toList
  | .options => "OPTIONS".toList
  | .head => "HEAD".toList
  | .unknown => "UNKNOWN".toList

def stringMethodMap : List (Str × Method) :=
  [("GET".toList, .get), ("POST".toList, .post), ("PUT".toList, .put), ("DELETE".toList, .del),
    ("OPTIONS".toList, .options), ("HEAD".toList, .head), ("UNKNOWN".toList, .unknown)]

def toMethod (str : Str) : Method := (stringMethodMap.lookup str).getD .unknown

/-! ## States -/

/-- `status_t`. -/
inductive Status
  | ok | created | accepted | noContent | multipleChoices | movedPermanently |
      movedTemporarily | notModified
  | badRequest | unauthorized | forbidden | notFound | internalServerError |
      notImplemented | badGateway
  | serviceUnavailable
  deriving DecidableEq, Repr

namespace Status

def code : Status → Nat
  | ok => 200
  | created => 201
  | accepted => 202
  | noContent => 204
  | multipleChoices => 300
  | movedPermanently => 301
  | movedTemporarily => 302
  | notModified => 304
  | badRequest => 400
  | unauthorized => 401
  | forbidden => 403
  | notFound => 404
  | internalServerError => 500
  | notImplemented => 501
  | badGateway => 502
  | serviceUnavailable => 503

/-- `request_status_string_map_`. -/
def toRequestString : Status → Str
  | ok => "HTTP/1.1 200 OK\r\n".toList
  | created => "HTTP/1.1 201 Created\r\n".toList
  | accepted => "HTTP/1.1 202 Accepted\r\n".toList
  | noContent => "HTTP/1.1 204 No Content\r\n".toList
  | multipleChoices => "HTTP/1.1 300 Multiple Choices\r\n".toList
  | movedPermanently => "HTTP/1.1 301 Moved Permanently\r\n".toList
  | movedTemporarily => "HTTP/1.1 302 Moved Temporarily\r\n".toList
  | notModified => "HTTP/1.1 304 Not Modified\r\n".toList
  | badRequest => "HTTP/1.1 400 Bad Request\r\n".toList
  | unauthorized => "HTTP/1.1 401 Unauthorized\r\n".toList
  | forbidden => "HTTP/1.1 403 Forbidden\r\n".toList
  | notFound => "HTTP/1.1 404 Not Found\r\n".toList
  | internalServerError => "HTTP/1.1 500 Internal Server error\r\n".toList
  | notImplemented => "HTTP/1.1 501 Not Implemented\r\n".toList
  | badGateway => "HTTP/1.1 502 Bad Gateway\r\n".toList
  | serviceUnavailable => "HTTP/1.1 503 Service unavailable\r\n".toList

/-- `status_string_map_`. -/
def toString : Status → Str
  | ok => "OK".toList
  | created => "Created".toList
  | accepted => "Accepted".toList
  | noContent => "No Content".toList
  | multipleChoices => "Multiple Choices".toList
  | movedPermanently => "Moved Permanently".toList
  | movedTemporarily => "Moved Temporarily".toList
  | notModified => "Not Modified".toList
  | badRequest => "Bad Request".toList
  | unauthorized => "Unauthorized".toList
  | forbidden => "Forbidden".toList
  | notFound => "Not Found".toList
  | internalServerError => "Internal Server error".toList
  | notImplemented => "Not Implemented".toList
  | badGateway => "Bad Gateway".toList
  | serviceUnavailable => "Service unavailable".toList

end Status

def stringStatusMap : List (Str × Status) :=
  [(['2', '0', '0'], .ok), (['2', '0', '1'], .created), (['2', '0', '2'], .accepted),
    (['2', '0', '4'], .noContent),
    (['3', '0', '0'], .multipleChoices), (['3', '0', '1'], .movedPermanently),
    (['3', '0', '2'], .movedTemporarily),
    (['3', '0', '4'], .notModified), (['4', '0', '0'], .badRequest),
    (['4', '0', '1'], .unauthorized),
    (['4', '0', '3'], .forbidden), (['4', '0', '4'], .notFound),
    (['5', '0', '0'], .internalServerError),
    (['5', '0', '1'], .notImplemented), (['5', '0', '2'], .badGateway),
    (['5', '0', '3'], .serviceUnavailable)]

/-- `to_status`; `at` throws for a key that the map does not have. -/
def toStatus (str : Str) : Option Status := stringStatusMap.lookup str

/-! ## Contents -/

structure Version where
  major : Nat := 0
  minor : Nat := 0
  deriving DecidableEq, Repr

structure Content where
  length : Str := ['0']
  type : Str := []
  md5 : Str := []
  deriving DecidableEq, Repr

/-- `std::to_string` of a number that is not negative. -/
def natText (n : Nat) : Str := Nat.toDigits 10 n

/-- `std::stoul`; `none` stands for the exceptions. -/
def stoul (str : Str) : Option Nat :=
  let str := str.dropWhile Json.isSpace
  let (neg, digits) :=
    match str with
    | '-' :: digits => (true, digits)
    | '+' :: digits => (false, digits)
    | digits => (false, digits)
  (Json.readDigits digits).bind fun r =>
    if r.1 < 2 ^ 64 then some (if neg then (2 ^ 64 - r.1) % 2 ^ 64 else r.1) else none

/-- The decimal digits of a number of 64 bits. -/
def IsLength (text : Str) : Prop :=
  text ≠ [] ∧ (∀ c ∈ text, c.isDigit = true) ∧ Nat.ofDigitChars 10 text 0 < 2 ^ 64

theorem stoul_of_isLength {text : Str} (h : IsLength text) :
    stoul text = some (Nat.ofDigitChars 10 text 0) := by
  have hread := Json.readDigits_append h.1 h.2.1 (show (Json.current []).isDigit = false from rfl)
  rw [List.append_nil] at hread
  obtain ⟨c, cs, hcs⟩ := List.exists_cons_of_ne_nil h.1
  have hc : c.isDigit := h.2.1 c (by simp [hcs])
  have hne {d : Char} (hd : d.isDigit = false) : c ≠ d := by
    rintro rfl
    exact absurd (hc.symm.trans hd) nofun
  have hspc : ¬ Json.isSpace c := by
    simp [Json.isSpace, hne (d := ' ') rfl, hne (d := '\t') rfl, hne (d := '\n') rfl,
      hne (d := '\x0b') rfl, hne (d := '\x0c') rfl, hne (d := '\r') rfl]
  unfold stoul
  rw [hcs, List.dropWhile_cons_of_neg hspc]
  dsimp only
  split
  · next heq => exact absurd (List.cons.inj heq).1 (hne rfl)
  · next heq => exact absurd (List.cons.inj heq).1 (hne rfl)
  · rw [← hcs, hread, bind_some, if_pos h.2.2]
    rfl

theorem stoul_natText {n : Nat} (h : n < 2 ^ 64) : stoul (natText n) = some n := by
  have hval : Nat.ofDigitChars 10 (natText n) 0 = n :=
    Nat.ofDigitChars_toDigits (by omega) (by omega)
  have hlen : IsLength (natText n) :=
    ⟨Nat.toDigits_ne_nil, fun c hc => Json.isDigit_of_mem_toDigits hc, hval.symm ▸ h⟩
  rw [stoul_of_isLength hlen, hval]

/-- What is missing of a body of this length: the difference of two numbers of 64 bits. -/
def missingOf (length body : Str) : Option Nat :=
  (stoul length).map fun n => (n + (2 ^ 64 - body.length % 2 ^ 64)) % 2 ^ 64

theorem missingOf_nil {length : Str} {n : Nat} (h : stoul length = some n) :
    missingOf length [] = some n := by
  have hlt : n < 2 ^ 64 := by
    obtain ⟨r, -, hr⟩ := bind_eq_some_iff.mp h
    obtain ⟨hlt, hr⟩ := ite_none_right_eq_some.mp hr
    rw [← some.inj hr]
    split_ifs
    · exact Nat.mod_lt _ (by decide)
    · exact hlt
  rw [missingOf, h, Option.map_some, List.length_nil, Nat.zero_mod, Nat.sub_zero, Nat.add_mod_right,
    Nat.mod_eq_of_lt hlt]

theorem missingOf_append {length body p : Str} {n : Nat} (h : missingOf length body = some n)
    (hp : p.length ≤ n) : missingOf length (body ++ p) = some (n - p.length) := by
  obtain ⟨N, hN, rfl⟩ := map_eq_some_iff.mp h
  rw [missingOf, hN, map_some, List.length_append]
  congr 1
  omega

/-- `strcasecmp` finds no difference. -/
def sameLetters (s t : Str) : Bool := s.map Char.toLower == t.map Char.toLower

/-- `request_header::CONTENT_TYPE`, and that of `response_header`. -/
def contentTypeName : Str := "Content-Type".toList

/-- `CONTENT_LENGTH`. -/
def contentLengthName : Str := "Content-Length".toList

/-- `CONTENT_MD5`. -/
def contentMd5Name : Str := "Content-MD5".toList

/-- `HOST`. -/
def hostName : Str := "Host".toList

/-! ## Types of contents -/

/-- `mime_types::types`. -/
inductive MimeType
  | imageGif | imageJpeg | imagePng | textHtml | textPlain | textXml | textCss | applicationJson |
      applicationGzip
  | applicationZip | applicationJavascript | applicationXWwwFormUrlencoded
  deriving DecidableEq, Repr

def textPlain : Str := "text/plain".toList

/-- `APPLICATION_X_WWW_FORM_URLENCODED`. -/
def formUrlencoded : Str := "application/x-www-form-urlencoded".toList

/-- `from_type`: the last type is not in `mime_type_map_`. -/
def MimeType.fromType : MimeType → Str
  | imageGif => "image/gif".toList
  | imageJpeg => "image/jpeg".toList
  | imagePng => "image/png".toList
  | textHtml => "text/html".toList
  | textPlain => Http.textPlain
  | textXml => "text/xml".toList
  | textCss => "text/css".toList
  | applicationJson => "application/json".toList
  | applicationGzip => "application/gzip".toList
  | applicationZip => "application/zip".toList
  | applicationJavascript => "application/javascript".toList
  | applicationXWwwFormUrlencoded => Http.textPlain

end Matador.Http
