import Mathlib.Data.List.Basic
import Mathlib.Tactic.Ring

/-!
# JSON values and their Go encoding

The values the deployer and the API handler put on the wire, and the text
`encoding/json` writes for them: compact, object fields in the order given, strings with
`"`, `\`, control characters, `<`, `>`, `&`, U+2028 and U+2029 escaped. The pointer
document is the one value stored as text; `metaJson_inj` shows its text names exactly one
prefix, which is what lets a reader of `domains/<d>/meta.json` know the deployment.
-/

namespace Pubstorm

inductive JsonValue where
  | null
  | bool (b : Bool)
  | num (n : Int)
  | str (s : String)
  | arr (items : List JsonValue)
  | obj (fields : List (String × JsonValue))
  deriving Inhabited

namespace Json

/-- The digit `hex[n]` of `encoding/json`. -/
def hexDigit (n : Nat) : Char := Char.ofNat (if n < 10 then 48 + n else 87 + n)

/-- Four lowercase hex digits of a code point below `0x10000`. -/
def hex4 (n : Nat) : List Char :=
  [hexDigit (n / 4096 % 16), hexDigit (n / 256 % 16), hexDigit (n / 16 % 16), hexDigit (n % 16)]

/-- Whether `encodeState.string` writes a character as a `\u` escape. -/
def NeedsUnicodeEscape (c : Char) : Prop :=
  c.val < 0x20 ∨ c = '<' ∨ c = '>' ∨ c = '&' ∨ c.val = 0x2028 ∨ c.val = 0x2029

instance (c : Char) : Decidable (NeedsUnicodeEscape c) := by
  unfold NeedsUnicodeEscape; infer_instance

/-- The escape sequence after the backslash, for a character that gets one. -/
def escapeCode (c : Char) : Option (List Char) :=
  if c = '\\' ∨ c = '"' then some [c]
  else if c = '\n' then some ['n']
  else if c = '\r' then some ['r']
  else if c = '\t' then some ['t']
  else if NeedsUnicodeEscape c then some ('u' :: hex4 c.val.toNat)
  else none

/-- One character as `encodeState.string` writes it. -/
def escapeChar (c : Char) : List Char :=
  match escapeCode c with
  | some code => '\\' :: code
  | none => [c]

/-- A string literal: the quoted, escaped characters. -/
def quote (s : String) : List Char := '"' :: s.data.flatMap escapeChar ++ ['"']

mutual
/-- The compact text `json.Marshal` writes for a value. -/
def encode : JsonValue → List Char
  | .null => "null".data
  | .bool b => (if b then "true" else "false").data
  | .num n => (toString n).data
  | .str s => quote s
  | .arr items => '[' :: encodeItems items ++ [']']
  | .obj fields => '\x7b' :: encodeFields fields ++ ['\x7d']

def encodeItems : List JsonValue → List Char
  | [] => []
  | [v] => encode v
  | v :: rest => encode v ++ ',' :: encodeItems rest

def encodeFields : List (String × JsonValue) → List Char
  | [] => []
  | [(k, v)] => quote k ++ ':' :: encode v
  | (k, v) :: rest => quote k ++ ':' :: encode v ++ ',' :: encodeFields rest
end

/-- `json.Marshal` of a value, as the bytes of a string. -/
def marshal (v : JsonValue) : String := String.mk (encode v)

example : marshal (.obj [("prefix", .str "a<b")]) = "\x7b\"prefix\":\"a\\u003cb\"\x7d" := by decide

/-! ### Escaping is a prefix code -/

theorem hexDigit_inj {d e : Nat} (hd : d < 16) (he : e < 16) (same : hexDigit d = hexDigit e) :
    d = e := by
  have : ∀ d : Fin 16, ∀ e : Fin 16, hexDigit d = hexDigit e → d = e := by decide
  exact congrArg Fin.val (this ⟨d, hd⟩ ⟨e, he⟩ same)

theorem hex4_inj {n m : Nat} (hn : n < 65536) (hm : m < 65536) (same : hex4 n = hex4 m) :
    n = m := by
  simp only [hex4, List.cons.injEq, and_true] at same
  obtain ⟨d3, d2, d1, d0⟩ := same
  have digit (a b : Nat) : hexDigit (a % 16) = hexDigit (b % 16) → a % 16 = b % 16 :=
    hexDigit_inj (Nat.mod_lt a (by decide)) (Nat.mod_lt b (by decide))
  have := digit _ _ d3
  have := digit _ _ d2
  have := digit _ _ d1
  have := digit _ _ d0
  omega

/-- The character a one-letter escape stands for. -/
def unescapeShort : Char → Option Char
  | '\\' => some '\\'
  | '"' => some '"'
  | 'n' => some '\n'
  | 'r' => some '\r'
  | 't' => some '\t'
  | _ => none

theorem unicode_val_lt {c : Char} (h : NeedsUnicodeEscape c) : c.val.toNat < 65536 := by
  rcases h with h | rfl | rfl | rfl | h | h
  · have : c.val.toNat < 32 := h
    omega
  all_goals first | decide | (rw [h]; decide)

/-- Every escape is a one-letter code other than `u`, or `u` and four hex digits. -/
theorem escapeCode_cases {c : Char} {code : List Char} (h : escapeCode c = some code) :
    (∃ x, code = [x] ∧ x ≠ 'u' ∧ unescapeShort x = some c) ∨
      (code = 'u' :: hex4 c.val.toNat ∧ c.val.toNat < 65536) := by
  unfold escapeCode at h
  split_ifs at h with quoted newline ret tab unicode <;> cases h
  · rcases quoted with rfl | rfl <;> exact .inl ⟨_, rfl, by decide, rfl⟩
  all_goals first | exact .inr ⟨rfl, unicode_val_lt unicode⟩ | (subst c; exact .inl ⟨_, rfl, by decide, rfl⟩)

theorem escapeCode_append_inj {c c' : Char} {code code' : List Char} (h : escapeCode c = some code)
    (h' : escapeCode c' = some code') {X Y : List Char} (same : code ++ X = code' ++ Y) :
    c = c' ∧ X = Y := by
  rcases escapeCode_cases h with ⟨x, rfl, hx, dx⟩ | ⟨rfl, lt⟩ <;>
    rcases escapeCode_cases h' with ⟨x', rfl, hx', dx'⟩ | ⟨rfl, lt'⟩
  · simp only [List.singleton_append, List.cons.injEq] at same
    obtain ⟨rfl, rfl⟩ := same
    exact ⟨Option.some.inj (dx.symm.trans dx'), rfl⟩
  · exact absurd (List.cons.inj same).1 hx
  · exact absurd (List.cons.inj same).1.symm hx'
  · have parts := List.append_inj (List.cons.inj same).2 (by simp [hex4])
    have vals := hex4_inj lt lt' parts.1
    exact ⟨Char.ext (UInt32.eq_of_val_eq (Fin.ext vals)), parts.2⟩

theorem escapeCode_backslash : escapeCode '\\' = some ['\\'] := by decide

theorem escapeChar_append_inj {c c' : Char} {X Y : List Char}
    (same : escapeChar c ++ X = escapeChar c' ++ Y) : c = c' ∧ X = Y := by
  unfold escapeChar at same
  cases h : escapeCode c <;> cases h' : escapeCode c' <;>
    simp only [h, h', List.singleton_append, List.cons_append, List.cons.injEq] at same
  · exact same
  · obtain ⟨rfl, -⟩ := same
    simp [escapeCode_backslash] at h
  · obtain ⟨rfl, -⟩ := same
    simp [escapeCode_backslash] at h'
  · exact escapeCode_append_inj h h' same.2

theorem escapeChar_append_ne_quote (c : Char) (X Y : List Char) :
    escapeChar c ++ X ≠ '"' :: Y := by
  unfold escapeChar
  cases h : escapeCode c <;> simp only [List.singleton_append, List.cons_append, ne_eq,
    List.cons.injEq, not_and]
  · rintro rfl
    simp [escapeCode] at h
  · simp

/-- An escaped string followed by a closing quote determines the string and what follows. -/
theorem escaped_quote_inj {s s' : List Char} {X Y : List Char}
    (same : s.flatMap escapeChar ++ '"' :: X = s'.flatMap escapeChar ++ '"' :: Y) :
    s = s' ∧ X = Y := by
  induction s generalizing s' with
  | nil =>
    cases s' with
    | nil => simpa using same
    | cons c' t' =>
      simp only [List.flatMap_nil, List.nil_append, List.flatMap_cons, List.append_assoc] at same
      exact absurd same.symm (escapeChar_append_ne_quote _ _ _)
  | cons c t ih =>
    cases s' with
    | nil =>
      simp only [List.flatMap_nil, List.nil_append, List.flatMap_cons, List.append_assoc] at same
      exact absurd same (escapeChar_append_ne_quote _ _ _)
    | cons c' t' =>
      simp only [List.flatMap_cons, List.append_assoc] at same
      obtain ⟨rfl, rest⟩ := escapeChar_append_inj same
      obtain ⟨rfl, rfl⟩ := ih rest
      exact ⟨rfl, rfl⟩

theorem quote_append_inj {s s' : String} {X Y : List Char}
    (same : quote s ++ X = quote s' ++ Y) : s = s' ∧ X = Y := by
  simp only [quote, List.cons_append, List.append_assoc, List.singleton_append,
    List.cons.injEq, true_and] at same
  obtain ⟨chars, rest⟩ := escaped_quote_inj same
  exact ⟨String.ext chars, rest⟩

end Json
end Pubstorm
