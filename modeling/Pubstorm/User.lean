import Mathlib.Data.List.Basic
import Pubstorm.Records

/-!
# Validating a user

`user.Validate` checks the password by its length in bytes and the email against
`emailRe`, `\A[^@\s]+@([^@\s]+\.)+[^@\s]+\z`. `EmailRe` is the set of strings that pattern
matches, read off its structure; `matchEmail` decides it (`matchEmail_iff`): one `@`, a
non-empty local part, and a domain with a dot that has a character before and after it,
neither part holding `@` or a space of RE2's `\s`.

So the `len(u.Email) < 5` test of `Validate` never decides anything, since a match has at
least five characters (`emailError_eq`), and `Validate` returns nil exactly for a password
of 6 to 72 bytes and an email `emailRe` matches (`validate_eq_none_iff`).
-/

namespace Pubstorm.User

/-- RE2's `\s`, `[\t\n\f\r ]`. -/
def isSpace (c : Char) : Bool := c = '\t' || c = '\n' || c = '\x0c' || c = '\r' || c = ' '

/-- `[^@\s]`. -/
def plain (c : Char) : Bool := c != '@' && !isSpace c

/-- What `[^@\s]+` matches. -/
def Run (s : List Char) : Prop := s ≠ [] ∧ ∀ c ∈ s, plain c = true

/-- What `([^@\s]+\.)+[^@\s]+` matches: runs each followed by a dot, then a run. -/
def DomainRe (d : List Char) : Prop :=
  ∃ groups last, groups ≠ [] ∧ (∀ g ∈ groups, Run g) ∧ Run last ∧
    d = (groups.map (· ++ ['.'])).flatten ++ last

/-- What `emailRe` matches, from `\A` to `\z`. -/
def EmailRe (s : String) : Prop := ∃ l d, s.data = l ++ '@' :: d ∧ Run l ∧ DomainRe d

/-- A dot with a character before it and one after it. -/
def innerDot : List Char → Bool
  | [] => false
  | _ :: rest => decide ('.' ∈ rest.dropLast)

/-- `emailRe.MatchString`: the text up to the first `@` and the text after it. -/
def matchEmail (s : String) : Bool :=
  let l := s.data.takeWhile (· != '@')
  match s.data.dropWhile (· != '@') with
  | [] => false
  | _ :: d => l != [] && l.all plain && d.all plain && innerDot d

/-- The password's error, by its length in bytes. -/
def passwordError (password : String) : Option String :=
  if password = "" then some "is required"
  else if password.utf8ByteSize < 6 then some "is too short (min. 6 characters)"
  else if password.utf8ByteSize > 72 then some "is too long (max. 72 characters)"
  else none

def emailError (email : String) : Option String :=
  if email = "" then some "is required"
  else if email.utf8ByteSize < 5 || !matchEmail email then some "is invalid"
  else none

/-- `Validate` on a user with this email and password: the errors by field, or nil when
there are none. A Go map has no order; this list has at most one entry per field. -/
def validate (email password : String) : Option (List (String × String)) :=
  let errors := (passwordError password).toList.map (("password", ·)) ++
    (emailError email).toList.map (("email", ·))
  if errors = [] then none else some errors

example : validate "foo@example.com" "password" = none ∧
    validate "foo@examplecom" "pass" =
      some [("password", "is too short (min. 6 characters)"), ("email", "is invalid")] := by
  decide

/-! ### The pattern -/

theorem ne_at_of_plain {c : Char} (h : plain c = true) : c ≠ '@' := by
  rintro rfl
  exact absurd h (by decide)

theorem mem_dropLast_iff {c : Char} : ∀ {l : List Char}, c ∈ l.dropLast ↔ ∃ a b, l = a ++ c :: b ∧ b ≠ []
  | [] => by simp
  | [x] => by
    simp only [List.dropLast_single, List.not_mem_nil, false_iff, not_exists, not_and]
    intro a b same
    cases a <;> simp_all
  | x :: y :: l => by
    rw [List.dropLast_cons₂, List.mem_cons, mem_dropLast_iff]
    constructor
    · rintro (rfl | ⟨a, b, same, more⟩)
      · exact ⟨[], y :: l, rfl, List.cons_ne_nil y l⟩
      · exact ⟨x :: a, b, by rw [same]; rfl, more⟩
    · rintro ⟨_ | ⟨z, a⟩, b, same, more⟩
      · exact .inl (List.cons.inj same).1.symm
      · obtain ⟨rfl, rest⟩ := List.cons.inj same
        exact .inr ⟨a, b, rest, more⟩

theorem innerDot_iff (d : List Char) :
    innerDot d = true ↔ ∃ a b, d = a ++ '.' :: b ∧ a ≠ [] ∧ b ≠ [] := by
  cases d with
  | nil => simp [innerDot]
  | cons x rest =>
    rw [innerDot, decide_eq_true_iff, mem_dropLast_iff]
    constructor
    · rintro ⟨a, b, rfl, more⟩
      exact ⟨x :: a, b, rfl, List.cons_ne_nil x a, more⟩
    · rintro ⟨_ | ⟨y, a⟩, b, same, first, more⟩
      · exact absurd rfl first
      · obtain ⟨rfl, rfl⟩ := List.cons.inj same
        exact ⟨a, b, rfl, more⟩

/-- The domain of `emailRe` is a string of `[^@\s]` with a dot inside it. -/
theorem domainRe_iff (d : List Char) :
    DomainRe d ↔ (∀ c ∈ d, plain c = true) ∧ ∃ a b, d = a ++ '.' :: b ∧ a ≠ [] ∧ b ≠ [] := by
  constructor
  · rintro ⟨_ | ⟨g, groups⟩, last, more, runs, final, rfl⟩
    · contradiction
    have grouped : ∀ c ∈ ((g :: groups).map (· ++ ['.'])).flatten, plain c = true := fun c mem => by
      obtain ⟨_, inMap, mem⟩ := List.mem_flatten.mp mem
      obtain ⟨h, inGroups, rfl⟩ := List.mem_map.mp inMap
      rcases List.mem_append.mp mem with mem | mem
      · exact (runs h inGroups).2 c mem
      · rw [List.mem_singleton.mp mem]
        rfl
    refine ⟨fun c mem => (List.mem_append.mp mem).elim (grouped c) (final.2 c),
      g, (groups.map (· ++ ['.'])).flatten ++ last, by simp, (runs g (List.mem_cons_self g groups)).1,
      by simp [final.1]⟩
  · rintro ⟨plains, a, b, rfl, first, last⟩
    refine ⟨[a], b, List.cons_ne_nil a [], fun g mem => ?_, ⟨last, fun c mem => plains c (by simp [mem])⟩,
      by simp⟩
    rw [List.mem_singleton.mp mem]
    exact ⟨first, fun c mem => plains c (by simp [mem])⟩

/-- `matchEmail` decides what `emailRe` matches. -/
theorem matchEmail_iff (s : String) : matchEmail s = true ↔ EmailRe s := by
  constructor
  · unfold matchEmail
    intro matched
    split at matched
    · contradiction
    · next x d found =>
      simp only [Bool.and_eq_true, bne_iff_ne, ne_eq, List.all_eq_true] at matched
      obtain ⟨⟨⟨nonempty, localPlain⟩, domain⟩, dot⟩ := matched
      have at_sign : x = '@' := by
        have := List.head?_dropWhile_not (· != '@') s.data
        rw [found] at this
        simpa using this
      subst at_sign
      refine ⟨_, d, ?_, ⟨nonempty, localPlain⟩, (domainRe_iff d).mpr ⟨domain, (innerDot_iff d).mp dot⟩⟩
      rw [← found, List.takeWhile_append_dropWhile]
  · rintro ⟨l, d, split, ⟨nonempty, localPlain⟩, domain⟩
    obtain ⟨plains, inner⟩ := (domainRe_iff d).mp domain
    have before : ∀ c ∈ l, (c != '@') = true := fun c mem => by simpa using ne_at_of_plain (localPlain c mem)
    simp only [matchEmail, split, List.takeWhile_append_of_pos before, List.dropWhile_append_of_pos before]
    simp [nonempty, List.all_eq_true.mpr localPlain, List.all_eq_true.mpr plains, (innerDot_iff d).mpr inner]

/-! ### `Validate` -/

theorem length_le_utf8ByteSize (s : String) : s.length ≤ s.utf8ByteSize := by
  obtain ⟨data⟩ := s
  show data.length ≤ String.utf8ByteSize.go data
  induction data with
  | nil => exact le_rfl
  | cons c data ih =>
    have := c.utf8Size_pos
    simp only [List.length_cons, String.utf8ByteSize.go]
    omega

/-- A string `emailRe` matches has five characters at least. -/
theorem EmailRe.five_le {s : String} (h : EmailRe s) : 5 ≤ s.utf8ByteSize := by
  obtain ⟨l, d, split, ⟨nonempty, -⟩, domain⟩ := h
  obtain ⟨-, a, b, rfl, first, last⟩ := (domainRe_iff d).mp domain
  have long : 5 ≤ s.length := by
    have := List.length_pos.mpr nonempty
    have := List.length_pos.mpr first
    have := List.length_pos.mpr last
    show 5 ≤ s.data.length
    simp only [split, List.length_append, List.length_cons]
    omega
  exact long.trans (length_le_utf8ByteSize s)

/-- The length test of the email never decides: a non-empty email is invalid exactly when
`emailRe` does not match it. -/
theorem emailError_eq (email : String) :
    emailError email =
      if email = "" then some "is required" else if matchEmail email then none else some "is invalid" := by
  unfold emailError
  split
  · rfl
  · cases matched : matchEmail email
    · simp
    · have := ((matchEmail_iff email).mp matched).five_le
      simp only [Bool.not_true, Bool.or_false, decide_eq_true_eq, if_true]
      rw [if_neg (by omega)]

theorem passwordError_eq_none (password : String) :
    passwordError password = none ↔ 6 ≤ password.utf8ByteSize ∧ password.utf8ByteSize ≤ 72 := by
  unfold passwordError
  split
  · next empty => simp [empty, show ("" : String).utf8ByteSize = 0 from rfl]
  · split <;> (try split) <;> simp <;> omega

theorem emailError_eq_none (email : String) : emailError email = none ↔ EmailRe email := by
  unfold emailError
  split
  · next empty =>
    subst empty
    simp only [reduceCtorEq, false_iff]
    exact fun re => absurd re.five_le (by decide)
  split
  · next bad =>
    simp only [reduceCtorEq, false_iff]
    intro re
    have := re.five_le
    simp [(matchEmail_iff email).mpr re] at bad
    omega
  · next good =>
    simp only [Bool.or_eq_true, decide_eq_true_eq, Bool.not_eq_true', not_or] at good
    exact iff_of_true rfl ((matchEmail_iff email).mp (by simpa using good.2))

/-- `Validate` returns nil exactly for a password of 6 to 72 bytes and an email `emailRe`
matches. -/
theorem validate_eq_none_iff (email password : String) :
    validate email password = none ↔
      6 ≤ password.utf8ByteSize ∧ password.utf8ByteSize ≤ 72 ∧ EmailRe email := by
  rw [← and_assoc, ← passwordError_eq_none, ← emailError_eq_none, validate]
  cases passwordError password <;> cases emailError email <;> simp

end Pubstorm.User
