import Pubstorm.Go.Base64

/-!
# `encoding/pem`

`EncodeToMemory` of a block without headers, and `Decode`: it finds the next `BEGIN` line,
reads the type and the headers, finds the `END` line of the same type and decodes the base64
between; a block that fails a check is passed over and the search goes on after it. It
returns the block and the bytes after its `END` line, or `nil` and its whole input.

`decode_encode_append` is what a chain of certificates rests on: `Decode` of one encoded
block followed by anything gives the block and exactly what follows it.
-/

namespace Pubstorm.Pem

/-- A block: its type, its headers in the order read, and its bytes. `Decode` keeps the
headers in a map by trimmed key; nothing here reads them, only whether there is one. -/
structure Block where
  type : List UInt8
  headers : List (List UInt8 × List UInt8)
  bytes : List UInt8
  deriving DecidableEq, Repr

def pemStart : List UInt8 := ascii "\n-----BEGIN "

def pemEnd : List UInt8 := ascii "\n-----END "

def pemEndOfLine : List UInt8 := ascii "-----"

/-! ### Lines -/

/-- The bytes before the first `\n` and, if there is one, the bytes after it. -/
def splitLine : List UInt8 → List UInt8 × Option (List UInt8)
  | [] => ([], none)
  | b :: rest => if b = 10 then ([], some rest) else (b :: (splitLine rest).1, (splitLine rest).2)

/-- `bytes.TrimRight(s, " \t")`. -/
def trimRight (s : List UInt8) : List UInt8 := (s.reverse.dropWhile fun b => b = 32 ∨ b = 9).reverse

/-- `getLine`: the first line without a `\r` before its `\n` and without trailing spaces and
tabs, and the bytes after its `\n`; a last line without `\n` is all the input. -/
def getLine (data : List UInt8) : List UInt8 × List UInt8 :=
  match splitLine data with
  | (line, none) => (trimRight line, [])
  | (line, some rest) => (trimRight (if line.getLast? = some 13 then line.dropLast else line), rest)

theorem splitLine_lt {data rest : List UInt8} (h : (splitLine data).2 = some rest) :
    rest.length < data.length := by
  induction data with
  | nil => cases h
  | cons b data ih =>
    simp only [splitLine] at h
    split at h
    · cases h
      simp
    · exact Nat.lt_succ_of_lt (ih h)

theorem getLine_rest_le (data : List UInt8) : (getLine data).2.length ≤ data.length := by
  unfold getLine
  split
  · exact Nat.zero_le _
  · next rest split => exact (splitLine_lt (congrArg Prod.snd split)).le

theorem getLine_rest_lt {data : List UInt8} (h : data ≠ []) : (getLine data).2.length < data.length := by
  unfold getLine
  split
  · exact List.length_pos.mpr h
  · next rest split => exact splitLine_lt (congrArg Prod.snd split)

/-! ### Searching -/

/-- `bytes.Index`: where `pat` first occurs in `data`. -/
def indexOf (pat : List UInt8) : List UInt8 → Option Nat
  | [] => if pat = [] then some 0 else none
  | b :: rest => if pat.isPrefixOf (b :: rest) then some 0 else (indexOf pat rest).map (· + 1)

/-- The bytes after the next `-----BEGIN `: at the very start, or after a `\n`. -/
def afterStart (rest : List UInt8) : Option (List UInt8) :=
  if (pemStart.drop 1).isPrefixOf rest then some (rest.drop (pemStart.length - 1))
  else (indexOf pemStart rest).map fun i => rest.drop (i + pemStart.length)

theorem indexOf_le {pat data : List UInt8} {i : Nat} (h : indexOf pat data = some i) :
    i + pat.length ≤ data.length := by
  induction data generalizing i with
  | nil =>
    simp only [indexOf] at h
    split at h
    · next empty => cases h; simp [empty]
    · cases h
  | cons b data ih =>
    simp only [indexOf] at h
    split at h
    · next found =>
      cases h
      simpa using (List.isPrefixOf_iff_prefix.mp found).length_le
    · obtain ⟨j, found, rfl⟩ := Option.map_eq_some'.mp h
      have := ih found
      simp only [List.length_cons]
      omega

theorem afterStart_lt {rest after : List UInt8} (h : afterStart rest = some after) :
    after.length < rest.length := by
  have twelve : pemStart.length = 12 := rfl
  unfold afterStart at h
  split at h
  · next found =>
    cases h
    have := (List.isPrefixOf_iff_prefix.mp found).length_le
    simp only [List.length_drop, twelve] at this ⊢
    omega
  · obtain ⟨i, found, rfl⟩ := Option.map_eq_some'.mp h
    have := indexOf_le found
    simp only [List.length_drop, twelve] at this ⊢
    omega

/-- `bytes.Cut(line, colon)`: the bytes before and after the first `:`. -/
def cutColon : List UInt8 → Option (List UInt8 × List UInt8)
  | [] => none
  | b :: rest =>
    if b = 58 then some ([], rest) else (cutColon rest).map fun (key, val) => (b :: key, val)

/-! ### `Decode` -/

/-- The header loop: lines with a `:` until one without it; `none` when the input runs out
first, where `Decode` gives up with `nil, data`. -/
def readHeaders (rest : List UInt8) : Option (List (List UInt8 × List UInt8) × List UInt8) :=
  if _ : rest = [] then none
  else
    match cutColon (getLine rest).1 with
    | none => some ([], rest)
    | some header => (readHeaders (getLine rest).2).map fun (headers, after) => (header :: headers, after)
termination_by rest.length
decreasing_by exact getLine_rest_lt ‹_›

theorem readHeaders_le {rest after : List UInt8} {headers : List (List UInt8 × List UInt8)}
    (h : readHeaders rest = some (headers, after)) : after.length ≤ rest.length := by
  induction rest using readHeaders.induct generalizing headers with
  | case1 => simp [readHeaders] at h
  | case2 rest nonempty plain =>
    rw [readHeaders, dif_neg nonempty] at h
    simp only [plain, Option.some.injEq, Prod.mk.injEq] at h
    rw [← h.2]
  | case3 rest nonempty header found ih =>
    rw [readHeaders, dif_neg nonempty] at h
    simp only [found] at h
    obtain ⟨⟨headers', after'⟩, read, same⟩ := Option.map_eq_some'.mp h
    cases same
    exact (ih read).trans (getLine_rest_le rest)

/-- Where the `END` line starts and where the type on it starts: at once if there were no
headers and the input starts with `-----END `, else at the first `\n-----END `. -/
def findEnd (noHeaders : Bool) (rest : List UInt8) : Option (Nat × Nat) :=
  if noHeaders ∧ (pemEnd.drop 1).isPrefixOf rest then some (0, pemEnd.length - 1)
  else (indexOf pemEnd rest).map fun i => (i, i + pemEnd.length)

/-- The checks on the `END` line: the block's type, five dashes, and nothing but spaces and
tabs up to the line's end. -/
def trailerOk (type rest : List UInt8) (endTrailerIndex : Nat) : Bool :=
  let endTrailer := rest.drop endTrailerIndex
  let endTrailerLen := type.length + pemEndOfLine.length
  endTrailerLen ≤ endTrailer.length ∧ type.isPrefixOf (endTrailer.take endTrailerLen) ∧
    pemEndOfLine.isSuffixOf (endTrailer.take endTrailerLen) ∧ (getLine (endTrailer.drop endTrailerLen)).1 = []

/-- `removeSpacesAndTabs`. -/
def removeSpacesAndTabs (data : List UInt8) : List UInt8 := data.filter fun b => b ≠ 32 ∧ b ≠ 9

/-- The loop of `Decode` from `rest`, `data` being its whole input. Each `continue` searches
again from where the failed block was read up to. -/
def decodeFrom (data rest : List UInt8) : Option Block × List UInt8 :=
  match found : afterStart rest with
  | none => (none, data)
  | some rest₁ =>
    if ¬ pemEndOfLine.isSuffixOf (getLine rest₁).1 then decodeFrom data (getLine rest₁).2
    else
      let type := (getLine rest₁).1.take ((getLine rest₁).1.length - pemEndOfLine.length)
      match read : readHeaders (getLine rest₁).2 with
      | none => (none, data)
      | some (headers, rest₃) =>
        match findEnd headers.isEmpty rest₃ with
        | none => decodeFrom data rest₃
        | some (endIndex, endTrailerIndex) =>
          if ¬ trailerOk type rest₃ endTrailerIndex then decodeFrom data rest₃
          else
            match Base64.decode (removeSpacesAndTabs (rest₃.take endIndex)) with
            | none => decodeFrom data rest₃
            | some bytes =>
              (some ⟨type, headers, bytes⟩, (getLine (rest₃.drop (endIndex + pemEnd.length - 1))).2)
termination_by rest.length
decreasing_by
  all_goals first
    | exact (getLine_rest_le rest₁).trans_lt (afterStart_lt found)
    | exact ((readHeaders_le read).trans (getLine_rest_le rest₁)).trans_lt (afterStart_lt found)

/-- `pem.Decode`. -/
def decode (data : List UInt8) : Option Block × List UInt8 := decodeFrom data data

/-- A block that passes every check of the loop is returned with the bytes after its `END`
line. -/
theorem decodeFrom_of_checks {data rest rest₁ after type bytes : List UInt8} {endIndex endTrailerIndex : Nat}
    (start : afterStart rest = some rest₁) (typeLine : getLine rest₁ = (type ++ pemEndOfLine, after))
    (plain : readHeaders after = some ([], after))
    (ending : findEnd true after = some (endIndex, endTrailerIndex))
    (trailer : trailerOk type after endTrailerIndex = true)
    (body : Base64.decode (removeSpacesAndTabs (after.take endIndex)) = some bytes) :
    decodeFrom data rest =
      (some ⟨type, [], bytes⟩, (getLine (after.drop (endIndex + pemEnd.length - 1))).2) := by
  have dashes : pemEndOfLine.isSuffixOf (type ++ pemEndOfLine) = true :=
    List.isSuffixOf_iff_suffix.mpr (List.suffix_append _ _)
  have typed : (type ++ pemEndOfLine).take ((type ++ pemEndOfLine).length - pemEndOfLine.length) = type := by
    simp
  rw [decodeFrom]
  split
  · next missing => rw [start] at missing; cases missing
  · next rest₁' found =>
    obtain rfl := Option.some.inj (start.symm.trans found)
    simp only [typeLine, dashes, not_true_eq_false, if_false, typed]
    split
    · next failed => simp [typeLine, plain] at failed
    · next headers rest₃ read =>
      simp only [typeLine, plain, Option.some.injEq, Prod.mk.injEq] at read
      obtain ⟨rfl, rfl⟩ := read
      simp only [List.isEmpty_nil, ending, trailer, not_true_eq_false, if_false, body]

/-- One pass of the loop gives up with the whole input, goes on from a shorter rest, or
returns a block and a rest shorter than where it started. -/
theorem decodeFrom_step (data rest : List UInt8) :
    decodeFrom data rest = (none, data) ∨
      (∃ rest', rest'.length < rest.length ∧ decodeFrom data rest = decodeFrom data rest') ∨
      ∃ block after, after.length < rest.length ∧ decodeFrom data rest = (some block, after) := by
  rw [decodeFrom]
  split
  · exact .inl rfl
  · next rest₁ found =>
    have shorter := afterStart_lt found
    split
    · exact .inr (.inl ⟨_, (getLine_rest_le rest₁).trans_lt shorter, rfl⟩)
    · split
      · exact .inl rfl
      · next headers rest₃ read =>
        have shorter₃ := ((readHeaders_le read).trans (getLine_rest_le rest₁)).trans_lt shorter
        dsimp only
        repeat' split
        all_goals first
          | exact .inr (.inl ⟨rest₃, shorter₃, rfl⟩)
          | exact .inr (.inr ⟨_, _, ((getLine_rest_le _).trans (List.drop_sublist _ _).length_le).trans_lt shorter₃, rfl⟩)

/-- A block found is followed by less than the whole input: a loop over the blocks of a
chain moves on. -/
theorem decodeFrom_rest_lt {data rest after : List UInt8} {block : Block}
    (h : decodeFrom data rest = (some block, after)) : after.length < rest.length := by
  rcases decodeFrom_step data rest with failed | ⟨rest', shorter, same⟩ | ⟨_, _, shorter, found⟩
  · rw [failed] at h; cases h
  · exact (decodeFrom_rest_lt (same.symm.trans h)).trans shorter
  · rw [found] at h; cases h; exact shorter
termination_by rest.length

theorem decode_rest_lt {data after : List UInt8} {block : Block}
    (h : decode data = (some block, after)) : after.length < data.length :=
  decodeFrom_rest_lt h

/-! ### `EncodeToMemory` -/

/-- What `lineBreaker` writes for a stream, `used` bytes being on the current line: a `\n`
after every 64th byte of a line, and at `Close` one after a line left unfinished. -/
def breakLines (used : Nat) : List UInt8 → List UInt8
  | [] => if 0 < used then [10] else []
  | b :: rest => if used + 1 = 64 then b :: 10 :: breakLines 0 rest else b :: breakLines (used + 1) rest

/-- `EncodeToMemory` of a block without headers, as every block this repository encodes:
the `BEGIN` line, the base64 of the bytes in lines of 64, the `END` line. -/
def encode (type bytes : List UInt8) : List UInt8 :=
  pemStart.drop 1 ++ type ++ ascii "-----\n" ++ breakLines 0 (Base64.encode bytes) ++
    pemEnd.drop 1 ++ type ++ ascii "-----\n"

example : encode (ascii "CERTIFICATE") (ascii "fooba") =
    ascii "-----BEGIN CERTIFICATE-----\nZm9vYmE=\n-----END CERTIFICATE-----\n" := by
  decide

theorem pemEnd_bytes : pemEnd = [10, 45, 45, 45, 45, 45, 69, 78, 68, 32] := rfl

theorem pemEndOfLine_bytes : pemEndOfLine = [45, 45, 45, 45, 45] := rfl

theorem dashes_newline : ascii "-----\n" = pemEndOfLine ++ [10] := rfl

theorem mem_breakLines {x : UInt8} {u : Nat} {s : List UInt8} (h : x ∈ breakLines u s) :
    x ∈ s ∨ x = 10 := by
  induction s generalizing u with
  | nil =>
    simp only [breakLines] at h
    split at h <;> simp_all
  | cons b s ih =>
    simp only [breakLines] at h
    split at h <;> simp only [List.mem_cons] at h ⊢
    · rcases h with rfl | rfl | h
      · exact .inl (.inl rfl)
      · exact .inr rfl
      · exact (ih h).imp_left .inr
    · rcases h with rfl | h
      · exact .inl (.inl rfl)
      · exact (ih h).imp_left .inr

/-- Once there is a byte to break, the lines end in a `\n`. -/
theorem breakLines_ends {u : Nat} {s : List UInt8} (h : s ≠ [] ∨ 0 < u) :
    ∃ body, breakLines u s = body ++ [10] := by
  induction s generalizing u with
  | nil => exact ⟨[], by simp [breakLines, h.resolve_left (by simp)]⟩
  | cons b s ih =>
    simp only [breakLines]
    split
    · rcases eq_or_ne s [] with rfl | more
      · exact ⟨[b], by simp [breakLines]⟩
      · obtain ⟨body, lines⟩ := ih (.inl more)
        exact ⟨b :: 10 :: body, by rw [lines]; rfl⟩
    · obtain ⟨body, lines⟩ := ih (.inr (Nat.succ_pos u))
      exact ⟨b :: body, by rw [lines]; rfl⟩

/-- Skipping line breaks undoes the line breaking. -/
theorem filter_breakLines (u : Nat) {s : List UInt8} (symbols : ∀ b ∈ s, b ≠ 10 ∧ b ≠ 13) :
    (breakLines u s).filter (fun b => b ≠ 10 ∧ b ≠ 13) = s := by
  induction s generalizing u with
  | nil =>
    simp only [breakLines]
    split <;> rfl
  | cons b s ih =>
    have ⟨lf, cr⟩ := symbols b (List.mem_cons_self b s)
    have rest := fun u => ih u fun c mem => symbols c (List.mem_cons_of_mem b mem)
    have kept : decide (b ≠ 10 ∧ b ≠ 13) = true := decide_eq_true ⟨lf, cr⟩
    simp only [breakLines]
    split
    · simp only [List.filter_cons, kept, if_true, rest]
      rfl
    · simp only [List.filter_cons, kept, if_true, rest]

/-! ### Reading back an encoded block -/

theorem splitLine_append {line : List UInt8} (rest : List UInt8) (h : 10 ∉ line) :
    splitLine (line ++ 10 :: rest) = (line, some rest) := by
  induction line with
  | nil => simp [splitLine]
  | cons b line ih =>
    rw [List.mem_cons, not_or] at h
    simp [splitLine, Ne.symm h.1, ih h.2]

/-- A line ending in the five dashes is read whole. -/
theorem getLine_dashes {line : List UInt8} (rest : List UInt8) (h : 10 ∉ line) :
    getLine (line ++ (ascii "-----\n" ++ rest)) = (line ++ pemEndOfLine, rest) := by
  have clear : 10 ∉ line ++ pemEndOfLine := by simp [h, pemEndOfLine_bytes]
  rw [dashes_newline, List.append_assoc, List.singleton_append, ← List.append_assoc, getLine,
    splitLine_append rest clear]
  simp [pemEndOfLine_bytes, trimRight]

theorem getLine_newline (rest : List UInt8) : getLine (10 :: rest) = ([], rest) := rfl

theorem cutColon_eq_none {line : List UInt8} (h : 58 ∉ line) : cutColon line = none := by
  induction line with
  | nil => rfl
  | cons b line ih =>
    rw [List.mem_cons, not_or] at h
    simp [cutColon, Ne.symm h.1, ih h.2]

/-- A first line without a `:` ends the headers at once. -/
theorem readHeaders_of_plain {rest : List UInt8} (h : rest ≠ []) (plain : 58 ∉ (getLine rest).1) :
    readHeaders rest = some ([], rest) := by
  rw [readHeaders, dif_neg h, cutColon_eq_none plain]

theorem mem_of_mem_getLine {x : UInt8} {data : List UInt8} (h : x ∈ (getLine data).1) :
    x ∈ (splitLine data).1 := by
  have trimmed : ∀ {l : List UInt8}, x ∈ trimRight l → x ∈ l := fun h =>
    List.mem_reverse.mp ((List.dropWhile_suffix _).subset (List.mem_reverse.mp h))
  unfold getLine at h
  split at h
  · next line split => rw [split]; exact trimmed h
  · next line rest split =>
    rw [split]
    split at h
    · exact List.dropLast_subset _ (trimmed h)
    · exact trimmed h

/-- The first line of broken lines holds only bytes of what was broken. -/
theorem mem_splitLine_breakLines {x : UInt8} {u : Nat} {s : List UInt8} (M : List UInt8)
    (symbols : ∀ b ∈ s, b ≠ 10) (h : s ≠ [] ∨ 0 < u)
    (mem : x ∈ (splitLine (breakLines u s ++ M)).1) : x ∈ s := by
  induction s generalizing u with
  | nil => simp [breakLines, h.resolve_left (by simp), splitLine] at mem
  | cons b s ih =>
    have lf : b ≠ 10 := symbols b (List.mem_cons_self b s)
    simp only [breakLines] at mem
    split at mem
    · simp [splitLine, lf] at mem
      exact mem ▸ List.mem_cons_self b s
    · simp only [List.cons_append, splitLine, lf, if_false, List.mem_cons] at mem
      rcases mem with rfl | mem
      · exact List.mem_cons_self _ _
      · exact List.mem_cons_of_mem _
          (ih (fun c mem => symbols c (List.mem_cons_of_mem b mem)) (.inr (Nat.succ_pos u)) mem)

theorem indexOf_append_self {pat : List UInt8} (h : pat ≠ []) (rest : List UInt8) :
    indexOf pat (pat ++ rest) = some 0 := by
  obtain ⟨b, pat, rfl⟩ := List.exists_cons_of_ne_nil h
  exact if_pos (List.isPrefixOf_iff_prefix.mpr (List.prefix_append _ _))

theorem indexOf_cons_of_not_prefix {pat rest : List UInt8} {b : UInt8}
    (h : pat.isPrefixOf (b :: rest) = false) : indexOf pat (b :: rest) = (indexOf pat rest).map (· + 1) :=
  if_neg (by simp [h])

/-- The `\n-----END ` after broken lines is found at their last `\n`: no earlier byte is a
`\n`, save one ending a line of 64, and a symbol, not a dash, follows that one. -/
theorem indexOf_pemEnd_breakLines {u : Nat} {s : List UInt8} (M : List UInt8)
    (symbols : ∀ b ∈ s, b ≠ 10 ∧ b ≠ 45) (h : s ≠ [] ∨ 0 < u) :
    indexOf pemEnd (breakLines u s ++ (pemEnd.drop 1 ++ M)) = some ((breakLines u s).length - 1) := by
  have found : ∀ M, indexOf pemEnd (10 :: (pemEnd.drop 1 ++ M)) = some 0 :=
    indexOf_append_self (List.cons_ne_nil _ _)
  have symbol : ∀ {b M}, b ≠ 10 → pemEnd.isPrefixOf (b :: M) = false := fun lf => by
    rw [pemEnd_bytes]
    simp [List.isPrefixOf, Ne.symm lf]
  induction s generalizing u with
  | nil => simpa [breakLines, h.resolve_left (by simp)] using found M
  | cons b s ih =>
    have lf := (symbols b (List.mem_cons_self b s)).1
    have rest := fun {u} => ih (u := u) fun c mem => symbols c (List.mem_cons_of_mem b mem)
    simp only [breakLines]
    split
    · rw [List.cons_append, indexOf_cons_of_not_prefix (symbol lf)]
      rcases s with _ | ⟨c, s⟩
      · simpa [breakLines] using found M
      · have dash := (symbols c (List.mem_cons_of_mem b (List.mem_cons_self c s))).2
        obtain ⟨body, lines⟩ := breakLines_ends (u := 0) (.inl (List.cons_ne_nil c s))
        have next : pemEnd.isPrefixOf (10 :: (breakLines 0 (c :: s) ++ (pemEnd.drop 1 ++ M))) = false := by
          rw [breakLines, if_neg (by decide), pemEnd_bytes]
          simp [List.isPrefixOf, Ne.symm dash]
        rw [List.cons_append, indexOf_cons_of_not_prefix next, rest (.inl (List.cons_ne_nil c s))]
        simp [lines]
    · rw [List.cons_append, indexOf_cons_of_not_prefix (symbol lf), rest (.inr (Nat.succ_pos u))]
      have ⟨body, lines⟩ := breakLines_ends (s := s) (.inr (Nat.succ_pos u))
      simp [lines]

theorem afterStart_begin (rest : List UInt8) : afterStart (pemStart.drop 1 ++ rest) = some rest := by
  rw [afterStart, if_pos (List.isPrefixOf_iff_prefix.mpr (List.prefix_append _ _))]
  exact congrArg some (List.drop_left' (List.length_drop _ _))

/-- The `END` line after the base64 lines of `s`: at once when `s` is empty, else at the last
`\n` of the lines; the type on it starts nine bytes on in both cases. -/
theorem findEnd_breakLines (s M : List UInt8) (symbols : ∀ b ∈ s, b ≠ 10 ∧ b ≠ 45) :
    findEnd true (breakLines 0 s ++ (pemEnd.drop 1 ++ M)) =
      some ((breakLines 0 s).length - 1, (breakLines 0 s).length + 9) := by
  rcases s with _ | ⟨b, s⟩
  · rw [findEnd, if_pos ⟨rfl, List.isPrefixOf_iff_prefix.mpr (List.prefix_append _ _)⟩]
    rfl
  · have dash := (symbols b (List.mem_cons_self b s)).2
    have starts : (pemEnd.drop 1).isPrefixOf (breakLines 0 (b :: s) ++ (pemEnd.drop 1 ++ M)) = false := by
      rw [breakLines, if_neg (by decide), pemEnd_bytes]
      simp [List.isPrefixOf, Ne.symm dash]
    obtain ⟨body, lines⟩ := breakLines_ends (u := 0) (.inl (List.cons_ne_nil b s))
    rw [findEnd, if_neg (by simp only [starts, Bool.false_eq_true, and_false, not_false_eq_true]),
      indexOf_pemEnd_breakLines M symbols (.inl (List.cons_ne_nil b s))]
    simp [lines, pemEnd_bytes]

/-- The `END` line of an encoded block passes its checks. -/
theorem trailerOk_encoded (type before more : List UInt8) :
    trailerOk type (before ++ (type ++ (ascii "-----\n" ++ more))) before.length = true := by
  have line : type ++ (ascii "-----\n" ++ more) = (type ++ pemEndOfLine) ++ 10 :: more := by
    simp [dashes_newline]
  have long : (type ++ pemEndOfLine).length = type.length + pemEndOfLine.length := List.length_append _ _
  simp only [trailerOk, List.drop_left, line, List.take_left' long, List.drop_left' long,
    getLine_newline, decide_eq_true_eq]
  exact ⟨by simp, List.isPrefixOf_iff_prefix.mpr (List.prefix_append _ _),
    List.isSuffixOf_iff_suffix.mpr (List.suffix_append _ _), trivial⟩

/-- The base64 between the lines of `s` and the `END` line decodes as `s` does. -/
theorem decode_take_breakLines (s M : List UInt8) (symbols : ∀ b ∈ s, Base64.Symbol b) :
    Base64.decode (removeSpacesAndTabs ((breakLines 0 s ++ M).take ((breakLines 0 s).length - 1))) =
      Base64.decode s := by
  have kept : ∀ b ∈ s, b ≠ 10 ∧ b ≠ 13 := fun b mem =>
    ⟨(symbols b mem).ne.2.1, (symbols b mem).ne.2.2.1⟩
  have body : (breakLines 0 s ++ M).take ((breakLines 0 s).length - 1) = (breakLines 0 s).dropLast := by
    rw [List.take_append_of_le_length (Nat.sub_le _ _), List.dropLast_eq_take]
  have spaced : ∀ b ∈ (breakLines 0 s).dropLast, b ≠ 32 ∧ b ≠ 9 := fun b mem => by
    rcases mem_breakLines (List.dropLast_subset _ mem) with mem | rfl
    · exact ⟨(symbols b mem).ne.2.2.2.1, (symbols b mem).ne.1⟩
    · decide
  have unbroken : (breakLines 0 s).dropLast.filter (fun b => b ≠ 10 ∧ b ≠ 13) = s := by
    rcases eq_or_ne s [] with rfl | more
    · rfl
    · obtain ⟨lines, ends⟩ := breakLines_ends (u := 0) (.inl more)
      calc (breakLines 0 s).dropLast.filter (fun b => b ≠ 10 ∧ b ≠ 13)
          _ = (breakLines 0 s).filter (fun b => b ≠ 10 ∧ b ≠ 13) := by
            rw [ends, List.dropLast_concat, List.filter_append]
            simp
          _ = s := filter_breakLines 0 kept
  rw [body, removeSpacesAndTabs, List.filter_eq_self.mpr (by simpa using spaced), Base64.decode,
    Base64.decode, unbroken, List.filter_eq_self.mpr (by simpa using kept)]

/-- What `Decode` leaves after the `END` line of an encoded block. -/
theorem getLine_after_end (s type more : List UInt8) (lf : 10 ∉ type) :
    (getLine ((breakLines 0 s ++ (pemEnd.drop 1 ++ (type ++ (ascii "-----\n" ++ more)))).drop
      ((breakLines 0 s).length - 1 + pemEnd.length - 1))).2 = more := by
  rcases eq_or_ne s [] with rfl | nonempty
  · have nine : (pemEnd.drop 1).length = 9 := rfl
    simp only [breakLines, lt_self_iff_false, if_false, List.nil_append, List.length_nil]
    rw [show 0 - 1 + pemEnd.length - 1 = 9 from rfl, List.drop_left' nine, getLine_dashes more lf]
  · obtain ⟨body, lines⟩ := breakLines_ends (u := 0) (.inl nonempty)
    have skipped : (breakLines 0 s ++ (pemEnd.drop 1 ++ (type ++ (ascii "-----\n" ++ more)))).drop
        ((breakLines 0 s).length - 1 + pemEnd.length - 1) = [32] ++ type ++ (ascii "-----\n" ++ more) := by
      rw [lines, pemEnd_bytes]
      simp [List.drop_append_eq_append_drop]
    rw [skipped, getLine_dashes more (by simpa using lf)]

/-- The line after the `BEGIN` line of an encoded block has no `:`: no headers are read. -/
theorem readHeaders_encoded (s type more : List UInt8) (symbols : ∀ b ∈ s, Base64.Symbol b)
    (lf : 10 ∉ type) (colon : 58 ∉ type) :
    readHeaders (breakLines 0 s ++ (pemEnd.drop 1 ++ (type ++ (ascii "-----\n" ++ more)))) =
      some ([], breakLines 0 s ++ (pemEnd.drop 1 ++ (type ++ (ascii "-----\n" ++ more)))) := by
  refine readHeaders_of_plain (by rw [pemEnd_bytes]; simp) fun mem => ?_
  rcases eq_or_ne s [] with rfl | nonempty
  · have endLine : 10 ∉ pemEnd.drop 1 ++ type := by rw [pemEnd_bytes]; simpa using lf
    simp only [breakLines, lt_self_iff_false, if_false, List.nil_append] at mem
    rw [← List.append_assoc, getLine_dashes more endLine, pemEnd_bytes, pemEndOfLine_bytes] at mem
    simp [colon] at mem
  · have symbol := symbols 58
      (mem_splitLine_breakLines _ (fun b mem => (symbols b mem).ne.2.1) (.inl nonempty) (mem_of_mem_getLine mem))
    exact symbol.ne.2.2.2.2.2 rfl

/-- Decoding one encoded block followed by anything gives the block, without headers, and
exactly what follows it. -/
theorem decode_encode_append {type : List UInt8} (bytes more : List UInt8) (lf : 10 ∉ type)
    (colon : 58 ∉ type) : decode (encode type bytes ++ more) = (some ⟨type, [], bytes⟩, more) := by
  have symbols := Base64.encode_symbols bytes
  have trailer := trailerOk_encoded type (breakLines 0 (Base64.encode bytes) ++ pemEnd.drop 1) more
  rw [List.append_assoc, List.length_append, show (pemEnd.drop 1).length = 9 from rfl] at trailer
  simp only [decode, encode, List.append_assoc]
  rw [decodeFrom_of_checks (afterStart_begin _) (getLine_dashes _ lf)
      (readHeaders_encoded _ type more symbols lf colon)
      (findEnd_breakLines _ _ fun b mem => ⟨(symbols b mem).ne.2.1, (symbols b mem).ne.2.2.2.2.1⟩)
      trailer ((decode_take_breakLines _ _ symbols).trans (Base64.decode_encode bytes)),
    getLine_after_end _ type more lf]

/-! ### The blocks of a bundle -/

/-- The blocks that calls of `Decode`, each on what the last one left, find in `data`, as a
loop over `len(rest) > 0` reads them: until a call finds none or nothing is left. -/
def blocks (data : List UInt8) : List Block :=
  if _ : data.length > 0 then
    match found : decode data with
    | (none, _) => []
    | (some block, rest) => block :: blocks rest
  else []
termination_by data.length
decreasing_by exact decode_rest_lt found

theorem blocks_nil : blocks [] = [] := by
  rw [blocks, dif_neg (by simp)]

theorem blocks_of_none {data rest : List UInt8} (h : decode data = (none, rest)) : blocks data = [] := by
  rw [blocks]
  split
  · split
    · rfl
    · next found => rw [h] at found; cases found
  · rfl

theorem blocks_of_some {data rest : List UInt8} {block : Block} (h : decode data = (some block, rest)) :
    blocks data = block :: blocks rest := by
  rw [blocks, dif_pos ((Nat.zero_le _).trans_lt (decode_rest_lt h))]
  split
  · next found => rw [h] at found; cases found
  · next found => rw [h] at found; cases found; rfl

theorem blocks_encode_append {type : List UInt8} (bytes more : List UInt8) (lf : 10 ∉ type)
    (colon : 58 ∉ type) : blocks (encode type bytes ++ more) = ⟨type, [], bytes⟩ :: blocks more :=
  blocks_of_some (decode_encode_append bytes more lf colon)

end Pubstorm.Pem
