import Pubstorm.Go.Path

/-!
# `path.Clean` and its rules

The documentation of `path.Clean` gives its rules element by element: empty and `.`
elements go, each `..` eliminates the real element before it, a `..` at the root of a
rooted path goes, and an empty result is `.`. `cleanSpec` states these rules as a fold over
the elements of the path (`resolve`). `Clean` itself makes one pass over the bytes with a
backtracking index `dotdot`, and `clean_eq_cleanSpec` says the two agree on every path.
Two consequences serve the keys of the bucket: a relative path of real elements is clean
already (`clean_join`), and a cleaned name after real elements resolves by eliminating them
with the name's leading `..`s (`clean_join_append_clean`).

The refinement goes element by element. Between two elements the buffer of the loop is
`buffer rooted j es` reversed, where `(j, es)` is the state of the fold: `j` elements `..`
that had nothing to eliminate, then the real elements `es`; `dotdot` marks the end of the
`..`s. `cleanLoop_element` says what one element does to the loop, and `cleanLoop_join`
runs the loop over all the elements.
-/

namespace Pubstorm.Path

/-! ### Elements -/

/-- A path element `Clean` keeps: not empty, without a separator, not `.` or `..`. -/
def Real (e : List Char) : Prop := e ≠ [] ∧ '/' ∉ e ∧ e ≠ ['.'] ∧ e ≠ ['.', '.']

instance : DecidablePred Real := fun e =>
  inferInstanceAs (Decidable (e ≠ [] ∧ '/' ∉ e ∧ e ≠ ['.'] ∧ e ≠ ['.', '.']))

/-- The elements, separated by `/`. -/
def join (es : List (List Char)) : List Char := ['/'].intercalate es

def dots : List Char := ['.', '.']

@[simp] theorem join_nil : join [] = [] := rfl

@[simp] theorem join_singleton (e : List Char) : join [e] = e := by
  simp [join, List.intercalate]

theorem join_cons_cons (e f : List Char) (es : List (List Char)) :
    join (e :: f :: es) = e ++ '/' :: join (f :: es) := by
  simp [join, List.intercalate, List.intersperse]

theorem join_cons (e : List Char) (es : List (List Char)) :
    join (e :: es) = e ++ if es = [] then [] else '/' :: join es := by
  cases es with
  | nil => simp
  | cons f es => rw [join_cons_cons, if_neg (List.cons_ne_nil f es)]

theorem join_append {xs ys : List (List Char)} (hx : xs ≠ []) (hy : ys ≠ []) :
    join (xs ++ ys) = join xs ++ '/' :: join ys := by
  induction xs with
  | nil => exact absurd rfl hx
  | cons x xs ih =>
    rcases eq_or_ne xs [] with rfl | more
    · obtain ⟨y, ys, rfl⟩ := List.exists_cons_of_ne_nil hy
      simp [join_cons_cons]
    · obtain ⟨x', xs', rfl⟩ := List.exists_cons_of_ne_nil more
      rw [List.cons_append, List.cons_append, join_cons_cons, ← List.cons_append, ih more, join_cons_cons]
      simp

theorem join_eq_nil {es : List (List Char)} (nonempty : ∀ e ∈ es, e ≠ []) : join es = [] ↔ es = [] := by
  refine ⟨fun empty => ?_, fun h => h ▸ rfl⟩
  rcases es with _ | ⟨e, es⟩
  · rfl
  · rw [join_cons, List.append_eq_nil] at empty
    exact absurd empty.1 (nonempty e (List.mem_cons_self e _))

theorem join_snoc (es : List (List Char)) (e : List Char) :
    join (es ++ [e]) = if es = [] then e else join es ++ '/' :: e := by
  split
  · next h => simp [h]
  · next h => simpa using join_append h (List.cons_ne_nil e [])

/-- The text after an element: nothing, or a separator and the next elements. -/
theorem join_rest_ends (es : List (List Char)) :
    ∀ c t, (if es = [] then [] else '/' :: join es) = c :: t → c = '/' := by
  split
  · nofun
  · exact fun c t h => (List.cons.inj h).1.symm

theorem not_mem_of_mem_splitOnP_go {xs : List Char} :
    ∀ {acc}, '/' ∉ acc → ∀ e ∈ List.splitOnP.go (· == '/') xs acc, '/' ∉ e := by
  induction xs with
  | nil =>
    intro acc fresh e mem
    rw [List.splitOnP.go, List.mem_singleton] at mem
    simpa [mem] using fresh
  | cons x xs ih =>
    intro acc fresh e mem
    rw [List.splitOnP.go] at mem
    split at mem
    · rcases List.mem_cons.mp mem with rfl | mem
      · simpa using fresh
      · exact ih (List.not_mem_nil _) e mem
    · next other =>
      exact ih (by simp only [List.mem_cons, not_or]; exact ⟨fun same => other (by simp [same.symm]), fresh⟩) e mem

theorem not_mem_of_mem_splitOn {xs e : List Char} (h : e ∈ xs.splitOn '/') : '/' ∉ e :=
  not_mem_of_mem_splitOnP_go (List.not_mem_nil _) e h

/-! ### The rules -/

/-- What one element does to the path resolved so far, `j` elements `..` that had nothing
to eliminate followed by the real elements `es`: an empty or `.` element goes, `..`
eliminates the real element before it or, with none, goes at the root of a rooted path and
stays in a relative one, and a real element stays. -/
def resolveElement (rooted : Bool) : Nat × List (List Char) → List Char → Nat × List (List Char)
  | (j, es), e =>
    if e = [] ∨ e = ['.'] then (j, es)
    else if e = dots then
      if es = [] then (if rooted then j else j + 1, []) else (j, es.dropLast)
    else (j, es ++ [e])

def resolve (rooted : Bool) (elements : List (List Char)) : Nat × List (List Char) :=
  elements.foldl (resolveElement rooted) (0, [])

/-- The resolved path in order: a rooted one keeps its `/` and no `..`. -/
def buffer : Bool → Nat → List (List Char) → List Char
  | true, _, es => '/' :: join es
  | false, j, es => join (List.replicate j dots ++ es)

/-- The resolved path as text, `.` when it is empty. -/
def render (rooted : Bool) (j : Nat) (es : List (List Char)) : String :=
  if buffer rooted j es = [] then "." else String.mk (buffer rooted j es)

/-- `path.Clean` by its documented rules: split at every `/`, resolve element by element. -/
def cleanSpec (path : String) : String :=
  let rooted := path.data.head? = some '/'
  let st := resolve rooted (path.data.splitOn '/')
  render rooted st.1 st.2

theorem resolveElement_reals (rooted : Bool) {st : Nat × List (List Char)} (reals : ∀ x ∈ st.2, Real x)
    {e : List Char} (h : '/' ∉ e) : ∀ x ∈ (resolveElement rooted st e).2, Real x := by
  obtain ⟨j, es⟩ := st
  rw [resolveElement]
  split
  · exact reals
  · next skip =>
    split
    · split
      · simp
      · exact fun x mem => reals x (List.dropLast_subset _ mem)
    · next dd =>
      rw [not_or] at skip
      simpa [or_imp, forall_and] using ⟨reals, skip.1, h, skip.2, dd⟩

theorem foldl_reals (rooted : Bool) :
    ∀ {elements : List (List Char)} {st : Nat × List (List Char)}, (∀ e ∈ elements, '/' ∉ e) →
      (∀ x ∈ st.2, Real x) → ∀ x ∈ (elements.foldl (resolveElement rooted) st).2, Real x
  | [], _, _, reals => reals
  | e :: rest, _, noSlash, reals =>
    @foldl_reals rooted rest _ (fun x mem => noSlash x (List.mem_cons_of_mem e mem))
      (resolveElement_reals rooted reals (noSlash e (List.mem_cons_self e rest)))

/-- Real elements are kept as they come. -/
theorem foldl_of_reals (rooted : Bool) {es : List (List Char)} (reals : ∀ e ∈ es, Real e)
    (st : Nat × List (List Char)) : es.foldl (resolveElement rooted) st = (st.1, st.2 ++ es) := by
  induction es generalizing st with
  | nil => simp
  | cons e es ih =>
    obtain ⟨ne, -, notDot, notDots⟩ := reals e (List.mem_cons_self e es)
    rw [List.foldl_cons, ih (fun x mem => reals x (List.mem_cons_of_mem e mem))]
    simp [resolveElement, ne, notDot, notDots, dots]

/-- In a relative path the `..`s eliminate the real elements before them, last first, and
pile up once there are none left. -/
theorem foldl_dots (i k : Nat) (es : List (List Char)) :
    (List.replicate k dots).foldl (resolveElement false) (i, es) = (i + (k - es.length), es.take (es.length - k)) := by
  induction k generalizing i es with
  | zero => simp
  | succ k ih =>
    rw [List.replicate_succ, List.foldl_cons]
    rcases eq_or_ne es [] with rfl | more
    · rw [show resolveElement false (i, []) dots = (i + 1, []) by simp [resolveElement, dots], ih]
      simp only [List.length_nil, List.take_nil, Nat.zero_sub, Nat.sub_zero]
      congr 1
      omega
    · have := List.length_pos.mpr more
      rw [show resolveElement false (i, es) dots = (i, es.dropLast) by simp [resolveElement, dots, more], ih,
        List.dropLast_eq_take, List.take_take, List.length_take, min_eq_left (Nat.sub_le _ _)]
      congr 2 <;> omega

/-- A rooted path never keeps a `..`. -/
theorem foldl_rooted : ∀ (elements : List (List Char)) (es : List (List Char)),
    (elements.foldl (resolveElement true) (0, es)).1 = 0
  | [], _ => rfl
  | e :: rest, es => by
    rw [List.foldl_cons, show resolveElement true (0, es) e = (0, (resolveElement true (0, es) e).2) by
      simp only [resolveElement]; split_ifs <;> rfl]
    exact foldl_rooted rest _

/-- Splitting the elements joined back gives them again, up to an empty element, which the
rules drop. -/
theorem foldl_splitOn_join {es : List (List Char)} (noSlash : ∀ e ∈ es, '/' ∉ e) (rooted : Bool)
    (st : Nat × List (List Char)) :
    ((join es).splitOn '/').foldl (resolveElement rooted) st = es.foldl (resolveElement rooted) st := by
  rcases eq_or_ne es [] with rfl | more
  · simp [resolveElement]
  · rw [join, List.splitOn_intercalate es '/' noSlash more]

/-- The elements of a resolved path, as the rules read them. -/
theorem foldl_splitOn_buffer (rooted : Bool) (j : Nat) {es : List (List Char)} (reals : ∀ e ∈ es, Real e)
    (rooted' : Bool) (st : Nat × List (List Char)) :
    ((buffer rooted j es).splitOn '/').foldl (resolveElement rooted') st =
      ((if rooted then [] else List.replicate j dots) ++ es).foldl (resolveElement rooted') st := by
  cases rooted with
  | true =>
    rw [buffer, show ('/' :: join es).splitOn '/' = [] :: (join es).splitOn '/' by simp [List.splitOn],
      List.foldl_cons, show resolveElement rooted' st [] = st by simp [resolveElement],
      foldl_splitOn_join (fun e mem => (reals e mem).2.1), if_pos rfl, List.nil_append]
  | false =>
    rw [buffer, if_neg Bool.false_ne_true]
    refine foldl_splitOn_join (fun e mem => ?_) rooted' st
    rcases List.mem_append.mp mem with mem | mem
    · rw [List.eq_of_mem_replicate mem]
      decide
    · exact (reals e mem).2.1

theorem splitOn_join_append {es : List (List Char)} (noSlash : ∀ e ∈ es, '/' ∉ e) (more : es ≠ [])
    (rest : List Char) : (join es ++ '/' :: rest).splitOn '/' = es ++ rest.splitOn '/' := by
  have all : ∀ e ∈ es ++ rest.splitOn '/', '/' ∉ e := fun e mem => by
    rcases List.mem_append.mp mem with mem | mem
    · exact noSlash e mem
    · exact not_mem_of_mem_splitOn mem
  have split : rest.splitOn '/' ≠ [] := List.splitOnP_ne_nil _ _
  conv_lhs => rw [← List.intercalate_splitOn rest '/', ← join, ← join_append more split]
  exact List.splitOn_intercalate _ '/' all (by simp [more])

/-! ### The loop, element by element -/

/-- Copying the bytes of an element up to the separator or the end. -/
theorem cleanLoop_copy (rooted : Bool) (dotdot : Nat) {xs : List Char} (h : '/' ∉ xs)
    (out : List Char) {tail : List Char} (ends : ∀ c t, tail = c :: t → c = '/') :
    cleanLoop rooted true dotdot out (xs ++ tail) = cleanLoop rooted false dotdot (xs.reverse ++ out) tail := by
  induction xs generalizing out with
  | nil =>
    cases tail with
    | nil => rfl
    | cons c t =>
      obtain rfl := ends c t rfl
      rw [List.nil_append, cleanLoop.eq_2, if_pos rfl]
      rfl
  | cons x xs ih =>
    rw [List.mem_cons, not_or] at h
    rw [List.cons_append, cleanLoop.eq_2, if_neg (Ne.symm h.1), ih h.2]
    simp

theorem cleanLoop_separator (rooted : Bool) (dotdot : Nat) (out rest : List Char) :
    cleanLoop rooted false dotdot out ('/' :: rest) = cleanLoop rooted false dotdot out rest := by
  rw [cleanLoop.eq_3]

theorem cleanLoop_rest (rooted : Bool) (dotdot : Nat) (out : List Char) (es : List (List Char)) :
    cleanLoop rooted false dotdot out (if es = [] then [] else '/' :: join es) =
      cleanLoop rooted false dotdot out (join es) := by
  split
  · next h => rw [h, join_nil]
  · exact cleanLoop_separator rooted dotdot out (join es)

theorem cleanLoop_dot (rooted : Bool) (dotdot : Nat) (out : List Char) {tail : List Char}
    (ends : ∀ c t, tail = c :: t → c = '/') :
    cleanLoop rooted false dotdot out ('.' :: tail) = cleanLoop rooted false dotdot out tail := by
  cases tail with
  | nil => rw [cleanLoop.eq_4]; rfl
  | cons c t =>
    obtain rfl := ends c t rfl
    rw [cleanLoop.eq_5, cleanLoop_separator]

/-- What a `..` element does to the state: backtrack to the last separator above
`dotdot`, or, unable to, nothing in a rooted path and append `..` in a relative one. -/
def dotdotStep (rooted : Bool) (dotdot : Nat) (out : List Char) : Nat × List Char :=
  if dotdot < out.length then (dotdot, dropElement dotdot out)
  else if rooted then (dotdot, out)
  else
    let out' := '.' :: '.' :: (if out.length = 0 then out else '/' :: out)
    (out'.length, out')

theorem cleanLoop_dotdot (rooted : Bool) (dotdot : Nat) (out : List Char) {tail : List Char}
    (ends : ∀ c t, tail = c :: t → c = '/') :
    cleanLoop rooted false dotdot out ('.' :: '.' :: tail) =
      cleanLoop rooted false (dotdotStep rooted dotdot out).1 (dotdotStep rooted dotdot out).2 tail := by
  unfold dotdotStep
  cases tail with
  | nil => rw [cleanLoop.eq_6]; split <;> (try split) <;> rfl
  | cons c t =>
    obtain rfl := ends c t rfl
    rw [cleanLoop.eq_7, cleanLoop_separator]
    split <;> (try split) <;> rfl

/-- The separator `Clean` writes before a real element: after the root `/` of a rooted path
or at the start of a relative one there is none. -/
def separate (rooted : Bool) (out : List Char) : List Char :=
  if (if rooted then out.length ≠ 1 else out.length ≠ 0) then '/' :: out else out

theorem cleanLoop_real (rooted : Bool) (dotdot : Nat) (out : List Char) {e tail : List Char}
    (real : Real e) (ends : ∀ c t, tail = c :: t → c = '/') :
    cleanLoop rooted false dotdot out (e ++ tail) =
      cleanLoop rooted false dotdot (e.reverse ++ separate rooted out) tail := by
  obtain ⟨nonempty, noSlash, notDot, notDotdot⟩ := real
  obtain ⟨c, e, rfl⟩ := List.exists_cons_of_ne_nil nonempty
  rw [List.mem_cons, not_or] at noSlash
  have headless : ∀ x t, e ++ tail = x :: t → x ≠ '/' → e ≠ [] := fun x t split other empty => by
    rw [empty, List.nil_append] at split
    exact other (ends x t split)
  rw [List.cons_append, cleanLoop.eq_8 rooted dotdot out c (e ++ tail) (Ne.symm noSlash.1)]
  · rw [cleanLoop_copy rooted dotdot noSlash.2 _ ends, separate]
    simp
  · rintro rfl split
    exact notDot (by simp [(List.append_eq_nil.mp split).1])
  · rintro t rfl split
    rcases e with _ | ⟨x, e⟩
    · exact notDot rfl
    · obtain ⟨rfl, -⟩ := List.cons.inj split
      exact noSlash.2 (List.mem_cons_self _ _)
  · rintro rfl split
    obtain ⟨x, e, rfl⟩ := List.exists_cons_of_ne_nil (headless '.' [] split (by decide))
    obtain ⟨rfl, rest⟩ := List.cons.inj split
    obtain ⟨rfl, -⟩ := List.append_eq_nil.mp rest
    exact notDotdot rfl
  · rintro t rfl split
    obtain ⟨x, e, rfl⟩ := List.exists_cons_of_ne_nil (headless '.' _ split (by decide))
    obtain ⟨rfl, rest⟩ := List.cons.inj split
    rcases e with _ | ⟨y, e⟩
    · exact notDotdot rfl
    · obtain ⟨rfl, -⟩ := List.cons.inj rest
      exact noSlash.2 (List.mem_cons_of_mem _ (List.mem_cons_self _ _))

theorem dropElement_separator (dotdot : Nat) (rest : List Char) : dropElement dotdot ('/' :: rest) = rest := by
  simp [dropElement]

theorem dropElement_append_of_lt {dotdot : Nat} {xs rest : List Char} (h : '/' ∉ xs)
    (lt : dotdot < rest.length) : dropElement dotdot (xs ++ rest) = dropElement dotdot rest := by
  induction xs with
  | nil => rfl
  | cons x xs ih =>
    rw [List.mem_cons, not_or] at h
    rw [List.cons_append, dropElement, if_pos ⟨by simp; omega, Ne.symm h.1⟩, ih h.2]

theorem dropElement_append_of_eq {dotdot : Nat} {xs rest : List Char} (h : '/' ∉ xs) (ne : xs ≠ [])
    (eq : rest.length = dotdot) : dropElement dotdot (xs ++ rest) = rest := by
  induction xs with
  | nil => exact absurd rfl ne
  | cons x xs ih =>
    rw [List.mem_cons, not_or] at h
    rw [List.cons_append, dropElement]
    rcases eq_or_ne xs [] with rfl | more
    · rw [if_neg (by simp; omega)]
      rfl
    · have := List.length_pos.mpr more
      rw [if_pos ⟨by simp; omega, Ne.symm h.1⟩, ih h.2 more]

/-! ### The state of the loop between elements -/

theorem buffer_length_le (rooted : Bool) (j : Nat) (es : List (List Char)) :
    (buffer rooted j []).length ≤ (buffer rooted j es).length := by
  cases rooted with
  | true => simp [buffer]
  | false =>
    rcases eq_or_ne es [] with rfl | more
    · exact le_rfl
    rcases Nat.eq_zero_or_pos j with rfl | pos
    · simp [buffer]
    · rw [buffer, buffer, List.append_nil, join_append (by simp; omega) more]
      simp

theorem buffer_snoc (rooted : Bool) (j : Nat) {es : List (List Char)} (nonempty : ∀ x ∈ es, x ≠ [])
    (e : List Char) :
    (buffer rooted j (es ++ [e])).reverse = e.reverse ++ separate rooted (buffer rooted j es).reverse := by
  cases rooted with
  | true =>
    rw [buffer, buffer, join_snoc, separate]
    by_cases empty : es = []
    · simp [empty]
    · have : join es ≠ [] := fun h => empty ((join_eq_nil nonempty).mp h)
      simp [empty, this]
  | false =>
    have all : ∀ x ∈ List.replicate j dots ++ es, x ≠ [] := by
      intro x mem
      rcases List.mem_append.mp mem with mem | mem
      · rw [List.eq_of_mem_replicate mem]
        simp [dots]
      · exact nonempty x mem
    rw [buffer, buffer, ← List.append_assoc, join_snoc, separate]
    by_cases empty : List.replicate j dots ++ es = []
    · simp [empty]
    · have : join (List.replicate j dots ++ es) ≠ [] := fun h => empty ((join_eq_nil all).mp h)
      simp [empty, this]

/-- Before the next real element either a separator goes, or the buffer is at its floor. -/
theorem separate_cases (rooted : Bool) (j : Nat) (es : List (List Char)) :
    separate rooted (buffer rooted j es).reverse = '/' :: (buffer rooted j es).reverse ∨
      separate rooted (buffer rooted j es).reverse = (buffer rooted j es).reverse ∧
        (buffer rooted j es).length = (buffer rooted j []).length := by
  unfold separate
  cases rooted with
  | true =>
    by_cases floor : (buffer true j es).length = 1
    · exact Or.inr ⟨by simp [floor], by rw [floor]; rfl⟩
    · exact Or.inl (by simp [floor])
  | false =>
    by_cases floor : (buffer false j es).length = 0
    · have := buffer_length_le false j es
      exact Or.inr ⟨by simp [floor], by omega⟩
    · exact Or.inl (by simp [floor])

theorem dotdotStep_stuck (rooted : Bool) (j : Nat) :
    dotdotStep rooted (buffer rooted j []).length (buffer rooted j []).reverse =
      ((buffer rooted (if rooted then j else j + 1) []).length,
        (buffer rooted (if rooted then j else j + 1) []).reverse) := by
  rw [dotdotStep, if_neg (by simp)]
  cases rooted with
  | true => rfl
  | false =>
    have grow := @buffer_snoc false j [] (by simp) dots
    rw [List.nil_append, show buffer false j [dots] = buffer false (j + 1) [] by
      simp [buffer, List.replicate_succ']] at grow
    have : '.' :: '.' :: (if (buffer false j []).reverse.length = 0 then (buffer false j []).reverse
        else '/' :: (buffer false j []).reverse) = (buffer false (j + 1) []).reverse := by
      rw [grow, separate]
      split <;> simp_all [dots]
    simp only [Bool.false_eq_true, if_false]
    rw [this, List.length_reverse]

theorem dotdotStep_backtrack (rooted : Bool) (j : Nat) {es : List (List Char)} {e : List Char}
    (reals : ∀ x ∈ es, Real x) (real : Real e) :
    dotdotStep rooted (buffer rooted j []).length (buffer rooted j (es ++ [e])).reverse =
      ((buffer rooted j []).length, (buffer rooted j es).reverse) := by
  have noSlash : '/' ∉ e.reverse := by simpa using real.2.1
  have ne : e.reverse ≠ [] := by simpa using real.1
  have := List.length_pos.mpr real.1
  rw [buffer_snoc rooted j (fun x mem => (reals x mem).1), dotdotStep]
  rcases separate_cases rooted j es with sep | ⟨sep, floor⟩ <;> rw [sep]
  · have := buffer_length_le rooted j es
    rw [if_pos (by simp; omega), dropElement_append_of_lt noSlash (by simp; omega), dropElement_separator]
  · rw [if_pos (by simp [floor]; omega), dropElement_append_of_eq noSlash ne (by simp [floor])]

/-- One element takes the loop from the state for `st` to the state for what the rules make
of `st` and that element. -/
theorem cleanLoop_element (rooted : Bool) {st : Nat × List (List Char)} (reals : ∀ x ∈ st.2, Real x)
    {e tail : List Char} (h : '/' ∉ e) (ends : ∀ c t, tail = c :: t → c = '/') :
    cleanLoop rooted false (buffer rooted st.1 []).length (buffer rooted st.1 st.2).reverse (e ++ tail) =
      cleanLoop rooted false (buffer rooted (resolveElement rooted st e).1 []).length
        (buffer rooted (resolveElement rooted st e).1 (resolveElement rooted st e).2).reverse tail := by
  obtain ⟨j, es⟩ := st
  simp only [resolveElement]
  by_cases skip : e = [] ∨ e = ['.']
  · rw [if_pos skip]
    rcases skip with rfl | rfl
    · rfl
    · exact cleanLoop_dot rooted _ _ ends
  rw [if_neg skip]
  by_cases dd : e = dots
  · subst dd
    rw [if_pos rfl, show dots ++ tail = '.' :: '.' :: tail from rfl, cleanLoop_dotdot _ _ _ ends]
    rcases List.eq_nil_or_concat es with rfl | ⟨es, e, rfl⟩
    · rw [if_pos rfl, dotdotStep_stuck]
    · rw [List.concat_eq_append] at reals ⊢
      rw [if_neg (by simp), dotdotStep_backtrack rooted j (fun x mem => reals x (by simp [mem])) (reals e (by simp)),
        List.dropLast_concat]
  · rw [not_or] at skip
    rw [if_neg dd, cleanLoop_real _ _ _ ⟨skip.1, h, skip.2, dd⟩ ends,
      buffer_snoc rooted j (fun x mem => (reals x mem).1)]

/-- The loop over the elements computes what the rules make of them. -/
theorem cleanLoop_join (rooted : Bool) :
    ∀ {elements : List (List Char)} {st : Nat × List (List Char)}, (∀ e ∈ elements, '/' ∉ e) →
      (∀ x ∈ st.2, Real x) →
      cleanLoop rooted false (buffer rooted st.1 []).length (buffer rooted st.1 st.2).reverse (join elements) =
        (buffer rooted (elements.foldl (resolveElement rooted) st).1
          (elements.foldl (resolveElement rooted) st).2).reverse
  | [], _, _, _ => by rw [join_nil, cleanLoop.eq_1]; rfl
  | e :: rest, _, noSlash, reals => by
    rw [join_cons, cleanLoop_element rooted reals (noSlash e (List.mem_cons_self e rest)) (join_rest_ends rest),
      cleanLoop_rest, List.foldl_cons]
    exact cleanLoop_join rooted (fun x mem => noSlash x (List.mem_cons_of_mem e mem))
      (resolveElement_reals rooted reals (noSlash e (List.mem_cons_self e rest)))

/-! ### Clean follows its rules -/

/-- `Clean` renders what the rules resolve a path to. -/
theorem clean_eq_render (name : String) {rooted : Bool} {j : Nat} {es : List (List Char)}
    (hr : decide (name.data.head? = some '/') = rooted) (named : resolve rooted (name.data.splitOn '/') = (j, es)) :
    clean name = render rooted j es := by
  have spec : clean name = cleanSpec name := by
    unfold clean cleanSpec
    split
    · next empty => simp [empty, resolve, resolveElement, render, buffer]
    · next c rest data =>
      have run := @cleanLoop_join (decide (c = '/')) (name.data.splitOn '/') (0, [])
        (fun e mem => not_mem_of_mem_splitOn mem) (by simp)
      rw [join, List.intercalate_splitOn, data] at run
      have start : ((if c = '/' then 1 else 0), (if c = '/' then ['/'] else [])) =
          ((buffer (decide (c = '/')) 0 []).length, (buffer (decide (c = '/')) 0 []).reverse) := by
        by_cases slash : c = '/' <;> simp [slash, buffer]
      simp only [Prod.mk.injEq] at start
      simp only [data, List.head?_cons, Option.some.injEq, start.1, start.2, run, render, resolve,
        List.reverse_eq_nil_iff, List.reverse_reverse]
  rw [spec]
  show render (decide (name.data.head? = some '/')) (resolve (decide (name.data.head? = some '/')) _).1
    (resolve (decide (name.data.head? = some '/')) _).2 = _
  rw [hr, named]

theorem clean_eq_cleanSpec (path : String) : clean path = cleanSpec path :=
  clean_eq_render path rfl rfl

/-- A resolved path starts with `/` exactly when it is rooted. -/
theorem rooted_buffer (rooted : Bool) (j : Nat) {es : List (List Char)} (reals : ∀ e ∈ es, Real e) :
    decide ((buffer rooted j es).head? = some '/') = rooted := by
  cases rooted with
  | true => simp [buffer]
  | false =>
    rw [decide_eq_false_iff_not]
    rcases split : List.replicate j dots ++ es with _ | ⟨x, rest⟩
    · simp [buffer, split]
    · have first : '/' ∉ x ∧ x ≠ [] := by
        rcases List.mem_append.mp (split ▸ List.mem_cons_self x rest) with mem | mem
        · rw [List.eq_of_mem_replicate mem]
          decide
        · exact ⟨(reals x mem).2.1, (reals x mem).1⟩
      obtain ⟨c, x, rfl⟩ := List.exists_cons_of_ne_nil first.2
      rw [buffer, split, join_cons]
      exact fun slash => first.1 (by simp at slash; simp [slash])

/-- The rules read a resolved path back as the state that resolved it. -/
theorem resolve_buffer (rooted : Bool) (j : Nat) {es : List (List Char)} (reals : ∀ e ∈ es, Real e) :
    resolve rooted ((buffer rooted j es).splitOn '/') = (if rooted then 0 else j, es) := by
  rw [resolve, foldl_splitOn_buffer rooted j reals]
  cases rooted
  · rw [if_neg Bool.false_ne_true, List.foldl_append, foldl_dots, foldl_of_reals false reals]
    simp
  · rw [if_pos rfl, List.nil_append, foldl_of_reals true reals]
    rfl

/-! ### A cleaned path after real elements -/

theorem buffer_eq_nil {rooted : Bool} {j : Nat} {es : List (List Char)} (reals : ∀ e ∈ es, Real e) :
    buffer rooted j es = [] ↔ rooted = false ∧ j = 0 ∧ es = [] := by
  cases rooted with
  | true => simp [buffer]
  | false =>
    rw [buffer, join_eq_nil fun e mem => ?_]
    · simp
    · rcases List.mem_append.mp mem with mem | mem
      · rw [List.eq_of_mem_replicate mem]
        decide
      · exact (reals e mem).1

/-- A relative path of real elements is clean already. -/
theorem clean_join {es : List (List Char)} (reals : ∀ e ∈ es, Real e) (more : es ≠ []) :
    clean ⟨join es⟩ = ⟨join es⟩ := by
  have nonempty : buffer false 0 es ≠ [] := fun empty => more ((buffer_eq_nil reals).mp empty).2.2
  have cleaned := clean_eq_render ⟨buffer false 0 es⟩ (rooted_buffer false 0 reals) (resolve_buffer false 0 reals)
  simp only [render, Bool.false_eq_true, if_false, if_neg nonempty] at cleaned
  simpa [buffer] using cleaned

theorem reals_of_resolve (name : String) {rooted : Bool} {j : Nat} {es : List (List Char)}
    (named : resolve rooted (name.data.splitOn '/') = (j, es)) : ∀ e ∈ es, Real e := by
  have := @foldl_reals rooted (name.data.splitOn '/') (0, []) (fun e mem => not_mem_of_mem_splitOn mem) (by simp)
  change ∀ x ∈ (resolve rooted (name.data.splitOn '/')).2, Real x at this
  rwa [named] at this

/-- The elements of a cleaned path, as the rules read them: the `..`s it kept, unless it
is rooted, then its real elements. -/
theorem foldl_splitOn_clean (name : String) {rooted : Bool} {j : Nat} {es : List (List Char)}
    (hr : decide (name.data.head? = some '/') = rooted) (named : resolve rooted (name.data.splitOn '/') = (j, es))
    (rooted' : Bool) (st : Nat × List (List Char)) :
    ((clean name).data.splitOn '/').foldl (resolveElement rooted') st =
      ((if rooted then [] else List.replicate j dots) ++ es).foldl (resolveElement rooted') st := by
  have reals := reals_of_resolve name named
  rw [clean_eq_render name hr named, render]
  split
  · next empty =>
    obtain ⟨rfl, rfl, rfl⟩ := (buffer_eq_nil reals).mp empty
    obtain ⟨i, es⟩ := st
    rw [show ['.'].splitOn '/' = [['.']] from rfl]
    simp [resolveElement]
  · exact foldl_splitOn_buffer rooted j reals rooted' st

/-- Cleaning the real elements `W` followed by a cleaned path: the `..`s the path kept
eliminate the elements of `W`, last first, those beyond them stay, and the real elements of
the path follow. -/
theorem clean_join_append_clean {W : List (List Char)} (reals : ∀ e ∈ W, Real e) (more : W ≠ [])
    (name : String) {rooted : Bool} {j : Nat} {es : List (List Char)}
    (hr : decide (name.data.head? = some '/') = rooted) (named : resolve rooted (name.data.splitOn '/') = (j, es)) :
    clean ⟨join W ++ '/' :: (clean name).data⟩ = render false (j - W.length) (W.take (W.length - j) ++ es) := by
  have named_reals := reals_of_resolve name named
  have relative : decide ((join W ++ '/' :: (clean name).data).head? = some '/') = false := by
    have first := rooted_buffer false 0 reals
    have nonempty : join W ≠ [] := fun h => more ((join_eq_nil fun e mem => (reals e mem).1).mp h)
    rw [buffer, List.replicate_zero, List.nil_append] at first
    rw [List.head?_append_of_ne_nil _ nonempty, first]
  rw [clean_eq_render _ relative rfl]
  show render false (List.foldl (resolveElement false) ((0 : Nat), ([] : List (List Char)))
    ((join W ++ '/' :: (clean name).data).splitOn '/')).1 _ = _
  rw [splitOn_join_append (fun e mem => (reals e mem).2.1) more, List.foldl_append,
    foldl_of_reals false reals, List.nil_append, foldl_splitOn_clean name hr named]
  cases rooted with
  | true =>
    have zero : j = 0 := by
      have := foldl_rooted (name.data.splitOn '/') []
      change (resolve true (name.data.splitOn '/')).1 = 0 at this
      rwa [named] at this
    rw [if_pos rfl, List.nil_append, foldl_of_reals false named_reals, zero]
    simp
  | false =>
    rw [if_neg Bool.false_ne_true, List.foldl_append, foldl_dots, foldl_of_reals false named_reals]
    simp

end Pubstorm.Path
