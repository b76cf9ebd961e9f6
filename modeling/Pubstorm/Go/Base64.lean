import Mathlib.Data.List.Basic

/-!
# `encoding/base64`, standard encoding

`StdEncoding` as `EncodeToString` writes it and as `Decode` and the stream of `NewDecoder`
read it: the alphabet `A–Z a–z 0–9 + /`, three bytes to four symbols, `=` padding a last
group of one or two bytes. The decoders skip `\r` and `\n` wherever they stand, and reject
a byte outside the alphabet, a group cut short, and anything but line breaks after the
padding. `decode_encode` is the round trip.
-/

namespace Pubstorm

/-- The bytes of a string of ASCII characters. -/
def ascii (s : String) : List UInt8 := s.data.map fun c => c.toNat.toUInt8

namespace Base64

/-- `encodeStd`. -/
def alphabet : List UInt8 := ascii "ABCDEFGHIJKLMNOPQRSTUVWXYZabcdefghijklmnopqrstuvwxyz0123456789+/"

/-- `StdPadding`, `=`. -/
def padChar : UInt8 := 61

/-- `enc.encode[i]`. -/
def encodeSym (i : Nat) : UInt8 := alphabet.getD i 0

/-- `enc.decodeMap`, built from the alphabet: the index of a byte in it. -/
def decodeSym (b : UInt8) : Option Nat := alphabet.indexOf? b

/-- `Encode`: each group of three bytes as the four six-bit fields of `val`, then the one or
two bytes left as two or three fields, padded to four symbols. -/
def encode : List UInt8 → List UInt8
  | a :: b :: c :: rest =>
    let val := a.toNat * 65536 + b.toNat * 256 + c.toNat
    [encodeSym (val / 262144 % 64), encodeSym (val / 4096 % 64), encodeSym (val / 64 % 64),
      encodeSym (val % 64)] ++ encode rest
  | [a, b] =>
    let val := a.toNat * 65536 + b.toNat * 256
    [encodeSym (val / 262144 % 64), encodeSym (val / 4096 % 64), encodeSym (val / 64 % 64), padChar]
  | [a] =>
    let val := a.toNat * 65536
    [encodeSym (val / 262144 % 64), encodeSym (val / 4096 % 64), padChar, padChar]
  | [] => []

/-- The three bytes `decodeQuantum` takes from the fields of a group, a field the padding
stands for being zero. -/
def groupBytes (x y z w : Nat) : List UInt8 :=
  let val := x * 262144 + y * 4096 + z * 64 + w
  [UInt8.ofNat (val / 65536 % 256), UInt8.ofNat (val / 256 % 256), UInt8.ofNat (val % 256)]

/-- `decodeQuantum` over the symbols once line breaks are skipped: a full group gives three
bytes, `xy==` one and `xyz=` two, and a padded group ends the input. -/
def decodeGroups : List UInt8 → Option (List UInt8)
  | [] => some []
  | a :: b :: c :: d :: rest =>
    match decodeSym a, decodeSym b with
    | some x, some y =>
      if c = padChar then
        if d = padChar ∧ rest = [] then some ((groupBytes x y 0 0).take 1) else none
      else
        match decodeSym c with
        | none => none
        | some z =>
          if d = padChar then
            if rest = [] then some ((groupBytes x y z 0).take 2) else none
          else
            match decodeSym d with
            | none => none
            | some w => (groupBytes x y z w ++ ·) <$> decodeGroups rest
    | _, _ => none
  | _ => none

/-- `StdEncoding.DecodeString`, and `ioutil.ReadAll` of a `NewDecoder`: `\r` and `\n` are
skipped wherever they stand. -/
def decode (s : List UInt8) : Option (List UInt8) := decodeGroups (s.filter fun b => b ≠ 10 ∧ b ≠ 13)

example : encode (ascii "fooba") = ascii "Zm9vYmE=" ∧ decode (ascii "Zm9v\nYmE=") = some (ascii "fooba") := by
  decide

/-! ### The alphabet -/

/-- A byte `Encode` writes. -/
def Symbol (b : UInt8) : Prop := b ∈ alphabet ∨ b = padChar

theorem decodeSym_encodeSym {i : Nat} (h : i < 64) : decodeSym (encodeSym i) = some i := by
  have table : ∀ i : Fin 64, decodeSym (encodeSym i) = some i := by decide
  exact table ⟨i, h⟩

theorem encodeSym_symbol {i : Nat} (h : i < 64) : Symbol (encodeSym i) ∧ encodeSym i ≠ padChar := by
  have bound : i < alphabet.length := h
  have mem : encodeSym i ∈ alphabet := by
    rw [encodeSym, List.getD_eq_getElem?_getD, List.getElem?_eq_getElem bound]
    exact List.getElem_mem bound
  exact ⟨.inl mem, fun pad => (by decide : padChar ∉ alphabet) (pad ▸ mem)⟩

/-- No symbol is a space, a tab, a line break, a `-` or a `:`, the bytes PEM looks for. -/
theorem Symbol.ne {b : UInt8} (h : Symbol b) :
    b ≠ 9 ∧ b ≠ 10 ∧ b ≠ 13 ∧ b ≠ 32 ∧ b ≠ 45 ∧ b ≠ 58 := by
  have table : ∀ b ∈ alphabet, b ≠ 9 ∧ b ≠ 10 ∧ b ≠ 13 ∧ b ≠ 32 ∧ b ≠ 45 ∧ b ≠ 58 := by decide
  rcases h with h | rfl
  · exact table b h
  · decide

theorem encode_symbols (bs : List UInt8) : ∀ b ∈ encode bs, Symbol b := by
  induction bs using encode.induct with
  | case1 a b c rest ih =>
    simp only [encode, List.cons_append, List.nil_append, List.mem_cons]
    rintro s (rfl | rfl | rfl | rfl | later)
    any_goals exact (encodeSym_symbol (Nat.mod_lt _ (by decide))).1
    exact ih s later
  | case2 a b =>
    simp only [encode, List.mem_cons, List.not_mem_nil, or_false]
    rintro s (rfl | rfl | rfl | rfl)
    any_goals exact (encodeSym_symbol (Nat.mod_lt _ (by decide))).1
    exact .inr rfl
  | case3 a =>
    simp only [encode, List.mem_cons, List.not_mem_nil, or_false]
    rintro s (rfl | rfl | rfl | rfl)
    any_goals exact (encodeSym_symbol (Nat.mod_lt _ (by decide))).1
    all_goals exact .inr rfl
  | case4 => nofun

/-! ### The round trip -/

theorem byte_of_toNat {n : Nat} {a : UInt8} (h : n = a.toNat) : UInt8.ofNat n = a := by
  subst h
  exact UInt8.toNat.inj (UInt8.toNat_ofNat_of_lt (UInt8.toNat_lt_size a))

/-- The fields of three bytes give the three bytes back. -/
theorem groupBytes_full (a b c : UInt8) :
    let val := a.toNat * 65536 + b.toNat * 256 + c.toNat
    groupBytes (val / 262144 % 64) (val / 4096 % 64) (val / 64 % 64) (val % 64) = [a, b, c] := by
  have : a.toNat < 256 := UInt8.toNat_lt_size a
  have : b.toNat < 256 := UInt8.toNat_lt_size b
  have : c.toNat < 256 := UInt8.toNat_lt_size c
  simp only [groupBytes, List.cons.injEq, and_true]
  exact ⟨byte_of_toNat (by omega), byte_of_toNat (by omega), byte_of_toNat (by omega)⟩

theorem decodeGroups_encode (bs : List UInt8) : decodeGroups (encode bs) = some bs := by
  induction bs using encode.induct with
  | case1 a b c rest ih =>
    have : a.toNat < 256 := UInt8.toNat_lt_size a
    simp only [encode, List.cons_append, List.nil_append, List.append_eq, decodeGroups,
      decodeSym_encodeSym (Nat.mod_lt _ (by decide : 64 > 0)),
      (encodeSym_symbol (Nat.mod_lt _ (by decide : 64 > 0))).2, if_false, ih, groupBytes_full]
    rfl
  | case2 a b =>
    have : a.toNat < 256 := UInt8.toNat_lt_size a
    have : b.toNat < 256 := UInt8.toNat_lt_size b
    simp only [encode, decodeGroups, decodeSym_encodeSym (Nat.mod_lt _ (by decide : 64 > 0)),
      (encodeSym_symbol (Nat.mod_lt _ (by decide : 64 > 0))).2, if_false, if_true, groupBytes,
      List.take, Option.some.injEq, List.cons.injEq, and_true]
    exact ⟨byte_of_toNat (by omega), byte_of_toNat (by omega)⟩
  | case3 a =>
    have : a.toNat < 256 := UInt8.toNat_lt_size a
    simp only [encode, decodeGroups, decodeSym_encodeSym (Nat.mod_lt _ (by decide : 64 > 0)),
      (encodeSym_symbol (Nat.mod_lt _ (by decide : 64 > 0))).2, if_false, if_true, and_self,
      groupBytes, List.take, Option.some.injEq, List.cons.injEq, and_true]
    exact byte_of_toNat (by omega)
  | case4 => rfl

/-- Decoding what `Encode` wrote, with line breaks anywhere, gives the bytes back. -/
theorem decode_encode (bs : List UInt8) : decode (encode bs) = some bs := by
  have unbroken : (encode bs).filter (fun b => b ≠ 10 ∧ b ≠ 13) = encode bs :=
    List.filter_eq_self.mpr fun b mem => by
      obtain ⟨-, lf, cr, -⟩ := (encode_symbols bs b mem).ne
      simp [lf, cr]
  rw [decode, unbroken, decodeGroups_encode]

end Base64

end Pubstorm
