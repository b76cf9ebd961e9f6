import Mathlib.Data.Nat.Digits
import Pubstorm.Go.Clean
import Pubstorm.World

/-!
# Storage layout

The keys the deployer reads and writes, and the pointer document. Every deployment owns
the namespace `deployments/<prefix>-<id>/`; `prefixID_inj` and `namespaceKey_inj` are why
two deployments never share a key when prefixes have no `/`, and `metaJson_inj` is why a
pointer document names one deployment.
-/

namespace Pubstorm

/-- Modelled from the spec: `Deployment.PrefixID` is not in the sources. The random prefix
and the id, `fmt.Sprintf("%s-%d", ...)`, as `Create` and the older deployer build it. -/
def Deployment.prefixID (d : Deployment) : String := d.randomPrefix ++ "-" ++ toString d.id

namespace Deployer

def bundlePath (prefixID : String) (useRawBundle : Bool) : String :=
  if useRawBundle then "deployments/" ++ prefixID ++ "/raw-bundle.tar.gz"
  else "deployments/" ++ prefixID ++ "/optimized-bundle.tar.gz"

def webroot (prefixID : String) : String := "deployments/" ++ prefixID ++ "/webroot"

/-- The key of a webroot file: `webroot + "/" + path.Clean(hdr.Name)`. -/
def remotePath (prefixID name : String) : String := webroot prefixID ++ "/" ++ Path.clean name

def metaKey (domain : String) : String := "domains/" ++ domain ++ "/meta.json"

/-- An archive entry named `../../../domains/victim/meta.json` in deployment `ab12-42`
gets a key that, once its `..` segments are resolved, is the pointer document of the
domain `victim`: `path.Clean` keeps leading `..` elements, so the name leaves the webroot. -/
theorem remotePath_escapes_webroot :
    Path.clean (remotePath "ab12-42" "../../../domains/victim/meta.json") = metaKey "victim" := by
  decide

/-- The pointer document: `json.Marshal` of the struct with `prefix` and
`force_https,omitempty`. -/
def metaJson (prefixID : String) (forceHTTPS : Bool) : String :=
  Json.marshal (.obj (("prefix", .str prefixID) ::
    if forceHTTPS then [("force_https", .bool true)] else []))

example : metaJson "ab12-42" false = "\x7b\"prefix\":\"ab12-42\"\x7d" := by decide

/-! ### The pointer document names one prefix -/

/-- What follows the prefix string in the pointer document. -/
def metaTail (forceHTTPS : Bool) : List Char :=
  if forceHTTPS then ',' :: Json.quote "force_https" ++ ':' :: "true".data ++ ['\x7d'] else ['\x7d']

theorem metaJson_data (prefixID : String) (forceHTTPS : Bool) :
    (metaJson prefixID forceHTTPS).data =
      '\x7b' :: Json.quote "prefix" ++ ':' :: Json.quote prefixID ++ metaTail forceHTTPS := by
  cases forceHTTPS <;> simp [metaJson, Json.marshal, Json.encode, Json.encodeFields, metaTail]

theorem metaJson_inj {a b : String} {fa fb : Bool} (same : metaJson a fa = metaJson b fb) :
    a = b ∧ fa = fb := by
  have chars := congrArg String.data same
  simp only [metaJson_data, List.cons.injEq, true_and, List.append_assoc,
    List.append_cancel_left_eq, List.cons_append] at chars
  obtain ⟨rfl, tails⟩ := Json.quote_append_inj chars
  refine ⟨rfl, ?_⟩
  cases fa <;> cases fb <;> first | rfl | simp [metaTail] at tails

/-! ### Decimal ids -/

/-- The value of a string of decimal digits. -/
def decimalValue (ds : List Char) : Nat := ds.foldl (fun acc c => 10 * acc + (c.toNat - 48)) 0

theorem decimalValue_append (xs ys : List Char) :
    decimalValue (xs ++ ys) = ys.foldl (fun acc c => 10 * acc + (c.toNat - 48)) (decimalValue xs) := by
  simp [decimalValue, List.foldl_append]

theorem digitChar_toNat {d : Nat} (h : d < 10) : (Nat.digitChar d).toNat = 48 + d := by
  have : ∀ d : Fin 10, (Nat.digitChar d).toNat = 48 + d := by decide
  exact this ⟨d, h⟩

theorem digitChar_ne {d : Nat} (h : d < 10) : Nat.digitChar d ≠ '-' ∧ Nat.digitChar d ≠ '/' := by
  have : ∀ d : Fin 10, Nat.digitChar d ≠ '-' ∧ Nat.digitChar d ≠ '/' := by decide
  exact this ⟨d, h⟩

theorem toDigitsCore_append (fuel n : Nat) (ds : List Char) :
    Nat.toDigitsCore 10 fuel n ds = Nat.toDigitsCore 10 fuel n [] ++ ds := by
  induction fuel generalizing n ds with
  | zero => rfl
  | succ fuel ih =>
    simp only [Nat.toDigitsCore]
    split
    · rfl
    · rw [ih _ (_ :: ds), ih _ [_]]
      simp

theorem toDigitsCore_value (fuel n : Nat) (enough : n < fuel) :
    decimalValue (Nat.toDigitsCore 10 fuel n []) = n := by
  induction fuel generalizing n with
  | zero => omega
  | succ fuel ih =>
    simp only [Nat.toDigitsCore]
    have digit := digitChar_toNat (Nat.mod_lt n (by norm_num : 10 > 0))
    split
    · rename_i small
      simp [decimalValue, digit]
      omega
    · rename_i large
      rw [toDigitsCore_append, decimalValue_append, ih _ (by omega)]
      simp [digit]
      omega

theorem toDigitsCore_mem (fuel n : Nat) (ds : List Char) {c : Char}
    (h : c ∈ Nat.toDigitsCore 10 fuel n ds) : c ∈ ds ∨ c ≠ '-' ∧ c ≠ '/' := by
  induction fuel generalizing n ds with
  | zero => exact .inl h
  | succ fuel ih =>
    simp only [Nat.toDigitsCore] at h
    have digit := digitChar_ne (Nat.mod_lt n (by norm_num : 10 > 0))
    split at h
    · rcases List.mem_cons.mp h with rfl | h
      · exact .inr digit
      · exact .inl h
    · rcases ih _ _ h with h | h
      · rcases List.mem_cons.mp h with rfl | h
        · exact .inr digit
        · exact .inl h
      · exact .inr h

theorem toString_data (n : Nat) : (toString n).data = Nat.toDigitsCore 10 (n + 1) n [] := rfl

theorem toString_inj {n m : Nat} (same : toString n = toString m) : n = m := by
  have values := congrArg (fun s : String => decimalValue s.data) same
  simpa only [toString_data, toDigitsCore_value _ _ (Nat.lt_succ_self _)] using values

theorem not_mem_toString (n : Nat) : '-' ∉ (toString n).data ∧ '/' ∉ (toString n).data := by
  rw [toString_data]
  constructor <;> intro h <;> rcases toDigitsCore_mem _ _ _ h with h | h
  all_goals simp_all


/-! ### Keys of different deployments -/

/-- Two lists cut at the first `a` of each are equal piecewise. -/
theorem split_first_inj {a : Char} {xs xs' X Y : List Char} (h : a ∉ xs) (h' : a ∉ xs')
    (same : xs ++ a :: X = xs' ++ a :: Y) : xs = xs' ∧ X = Y := by
  induction xs generalizing xs' with
  | nil =>
    cases xs' with
    | nil => simpa using same
    | cons c t =>
      obtain ⟨rfl, -⟩ := List.cons.inj same
      simp at h'
  | cons c t ih =>
    cases xs' with
    | nil =>
      obtain ⟨rfl, -⟩ := List.cons.inj same
      simp at h
    | cons c' t' =>
      obtain ⟨rfl, rest⟩ := List.cons.inj same
      obtain ⟨rfl, rfl⟩ := ih (fun m => h (List.mem_cons_of_mem _ m))
        (fun m => h' (List.mem_cons_of_mem _ m)) rest
      exact ⟨rfl, rfl⟩

theorem prefixID_data (d : Deployment) :
    d.prefixID.data = d.randomPrefix.data ++ '-' :: (toString d.id).data := by
  simp [Deployment.prefixID]

/-- The prefix and the id can be read back from a `PrefixID`: the id is what follows
the last `-`, since a decimal has none. -/
theorem prefixID_inj {d d' : Deployment} (same : d.prefixID = d'.prefixID) :
    d.randomPrefix = d'.randomPrefix ∧ d.id = d'.id := by
  have chars := congrArg (fun s : String => s.data.reverse) same
  simp only [prefixID_data, List.reverse_append, List.reverse_cons, List.append_assoc,
    List.singleton_append] at chars
  obtain ⟨ids, prefixes⟩ := split_first_inj (by simpa using (not_mem_toString d.id).1)
    (by simpa using (not_mem_toString d'.id).1) chars
  exact ⟨String.ext (List.reverse_injective prefixes),
    toString_inj (String.ext (List.reverse_injective ids))⟩

/-- A key inside a deployment's namespace. -/
def namespaceKey (prefixID rest : String) : String := "deployments/" ++ prefixID ++ "/" ++ rest

theorem remotePath_eq (prefixID name : String) :
    remotePath prefixID name = namespaceKey prefixID ("webroot/" ++ Path.clean name) := by
  simp only [remotePath, webroot, namespaceKey, String.append_assoc]
  rfl

theorem bundlePath_eq (prefixID : String) (raw : Bool) :
    bundlePath prefixID raw =
      namespaceKey prefixID (if raw then "raw-bundle.tar.gz" else "optimized-bundle.tar.gz") := by
  cases raw <;> simp only [bundlePath, namespaceKey, String.append_assoc, if_true, if_false,
    Bool.false_eq_true] <;> rfl

theorem namespaceKey_inj {p p' r r' : String} (h : '/' ∉ p.data) (h' : '/' ∉ p'.data)
    (same : namespaceKey p r = namespaceKey p' r') : p = p' ∧ r = r' := by
  have chars := congrArg String.data same
  simp only [namespaceKey, String.data_append, List.append_assoc, List.append_cancel_left_eq] at chars
  obtain ⟨prefixes, rest⟩ := split_first_inj h h' chars
  exact ⟨String.ext prefixes, String.ext (by simpa using rest)⟩

theorem slash_not_mem_prefixID {d : Deployment} (h : '/' ∉ d.randomPrefix.data) :
    '/' ∉ d.prefixID.data := by
  simp [prefixID_data, h, (not_mem_toString d.id).2]

/-- Keys in the namespaces of two deployments coincide only for one prefix and one id. -/
theorem namespaceKey_prefixID_inj {d d' : Deployment} (h : '/' ∉ d.randomPrefix.data)
    (h' : '/' ∉ d'.randomPrefix.data) {r r' : String}
    (same : namespaceKey d.prefixID r = namespaceKey d'.prefixID r') :
    d.randomPrefix = d'.randomPrefix ∧ d.id = d'.id :=
  prefixID_inj (namespaceKey_inj (slash_not_mem_prefixID h) (slash_not_mem_prefixID h') same).1

/-- The namespace `deployments/<prefix>-<id>/` of one deployment is a prefix of another's only
when both have the same prefix and the same id, whatever `-` the prefixes hold: the `/`
closes the namespace and the id is what follows the last `-`. So two deployments that
differ in either never share a raw bundle, an optimized bundle or a webroot key. -/
theorem deployment_namespaces_disjoint {d d' : Deployment} (h : '/' ∉ d.randomPrefix.data)
    (h' : '/' ∉ d'.randomPrefix.data) :
    ((namespaceKey d.prefixID "").data <+: (namespaceKey d'.prefixID "").data →
        d.randomPrefix = d'.randomPrefix ∧ d.id = d'.id) ∧
      (d.randomPrefix ≠ d'.randomPrefix ∨ d.id ≠ d'.id →
        ∀ raw raw' name name', bundlePath d.prefixID raw ≠ bundlePath d'.prefixID raw' ∧
          remotePath d.prefixID name ≠ remotePath d'.prefixID name' ∧
          bundlePath d.prefixID raw ≠ remotePath d'.prefixID name') := by
  refine ⟨fun ⟨t, extended⟩ => @namespaceKey_prefixID_inj _ _ h h' ⟨t⟩ "" ?_,
    fun distinct raw raw' name name' => ?_⟩
  · exact String.ext (by simpa [namespaceKey] using extended)
  have apart : ∀ {r r'}, namespaceKey d.prefixID r ≠ namespaceKey d'.prefixID r' := fun same =>
    have ⟨prefixes, ids⟩ := namespaceKey_prefixID_inj h h' same
    distinct.elim (· prefixes) (· ids)
  rw [bundlePath_eq, bundlePath_eq, remotePath_eq, remotePath_eq]
  exact ⟨apart, apart, apart⟩

/-- Deployment 2 with prefix `ab-1` and deployment 12 with prefix `ab`: their `PrefixID`s
`ab-1-2` and `ab-12` differ though one prefix ends where the other's id begins. -/
theorem deployment_namespaces_disjoint_dash :
    let d : Deployment := ⟨2, 1, 7, "ab-1", 1, .pendingDeploy, 0, none⟩
    let d' : Deployment := ⟨12, 1, 7, "ab", 1, .pendingDeploy, 0, none⟩
    '/' ∉ d.randomPrefix.data ∧ '/' ∉ d'.randomPrefix.data ∧
      ((namespaceKey d.prefixID "").data <+: (namespaceKey d'.prefixID "").data →
          d.randomPrefix = d'.randomPrefix ∧ d.id = d'.id) ∧
        (d.randomPrefix ≠ d'.randomPrefix ∨ d.id ≠ d'.id →
          ∀ raw raw' name name', bundlePath d.prefixID raw ≠ bundlePath d'.prefixID raw' ∧
            remotePath d.prefixID name ≠ remotePath d'.prefixID name' ∧
            bundlePath d.prefixID raw ≠ remotePath d'.prefixID name') :=
  ⟨by decide, by decide, deployment_namespaces_disjoint (by decide) (by decide)⟩

theorem metaKey_ne_namespaceKey (domain p r : String) : metaKey domain ≠ namespaceKey p r := by
  intro same
  have chars := congrArg (fun s : String => s.data.take 2) same
  simp [metaKey, namespaceKey] at chars

theorem remotePath_ne_bundlePath (p name : String) (raw : Bool) :
    remotePath p name ≠ bundlePath p raw := by
  rw [remotePath_eq, bundlePath_eq]
  intro same
  have chars := congrArg String.data same
  simp only [namespaceKey, String.data_append, List.append_assoc, List.append_cancel_left_eq] at chars
  cases raw <;> simp at chars


/-! ### Where a webroot key resolves -/

/-- The elements of a webroot: `deployments`, the `PrefixID`, `webroot`. -/
def webrootElements (prefixID : String) : List (List Char) :=
  ["deployments".data, prefixID.data, "webroot".data]

theorem real_prefixID {d : Deployment} (h : '/' ∉ d.randomPrefix.data) : Path.Real d.prefixID.data := by
  have dash : '-' ∈ d.prefixID.data := by simp [prefixID_data]
  refine ⟨List.ne_nil_of_mem dash, slash_not_mem_prefixID h, fun dot => ?_, fun dots => ?_⟩
  · rw [dot] at dash
    simp at dash
  · rw [dots] at dash
    simp at dash

theorem remotePath_data (prefixID name : String) :
    remotePath prefixID name = ⟨Path.join (webrootElements prefixID) ++ '/' :: (Path.clean name).data⟩ := by
  apply String.ext
  simp [remotePath, webroot, webrootElements, Path.join_cons_cons]

/-- Where the key of an archive entry lands once its `.` and `..` elements are resolved.
`Clean` has resolved the name by itself, to `j` elements `..` with nothing before them to
eliminate followed by real elements `es`, and a rooted name keeps no `..`. In the key these
`..`s eliminate `webroot`, the `PrefixID` and `deployments` in turn, those beyond three
stay, and `es` follows. So a name stays in its webroot when it has no leading `..`, and one
with three reaches any key of the bucket. -/
theorem clean_remotePath {d : Deployment} (h : '/' ∉ d.randomPrefix.data) (name : String) :
    let named := Path.resolve (name.data.head? = some '/') (name.data.splitOn '/')
    Path.clean (remotePath d.prefixID name) =
      Path.render false (named.1 - 3) ((webrootElements d.prefixID).take (3 - named.1) ++ named.2) := by
  intro named
  have reals : ∀ e ∈ webrootElements d.prefixID, Path.Real e := by
    simp only [webrootElements, List.mem_cons, List.mem_singleton, List.not_mem_nil, or_false]
    rintro e (rfl | rfl | rfl)
    · decide
    · exact real_prefixID h
    · decide
  rw [remotePath_data]
  exact Path.clean_join_append_clean reals (List.cons_ne_nil _ _) name rfl rfl

/-- The name `../../../domains/victim/meta.json` has three leading `..` elements: its key
resolves to `domains/victim/meta.json`. -/
theorem clean_remotePath_victim :
    let d : Deployment := ⟨42, 1, 7, "ab12", 1, .pendingDeploy, 0, none⟩
    let name := "../../../domains/victim/meta.json"
    '/' ∉ d.randomPrefix.data ∧
      let named := Path.resolve (name.data.head? = some '/') (name.data.splitOn '/')
      Path.clean (remotePath d.prefixID name) =
        Path.render false (named.1 - 3) ((webrootElements d.prefixID).take (3 - named.1) ++ named.2) :=
  ⟨by decide, clean_remotePath (by decide) _⟩

/-! ### Keys once resolved -/

/-- An entry name whose key resolves strictly inside the webroot of `prefixID`: the resolved
key starts with the webroot and a `/`. -/
def Inside (prefixID name : String) : Prop :=
  (webroot prefixID ++ "/").data <+: (Path.clean (remotePath prefixID name)).data

instance (prefixID name : String) : Decidable (Inside prefixID name) :=
  inferInstanceAs (Decidable (List.IsPrefix _ _))

example : Inside "ab12-42" "css/../index.html" ∧ ¬ Inside "ab12-42" "../x" := by decide

theorem inside_eq {p n : String} (h : Inside p n) :
    ∃ rest, Path.clean (remotePath p n) = namespaceKey p ("webroot/" ++ rest) := by
  obtain ⟨t, ht⟩ := h
  refine ⟨⟨t⟩, String.ext ?_⟩
  rw [← ht]
  simp [webroot, namespaceKey]

/-- Keys that resolve inside webroots resolve to one path only within one namespace. -/
theorem inside_inj {p p' n n' : String} (h : '/' ∉ p.data) (h' : '/' ∉ p'.data) (hi : Inside p n)
    (hi' : Inside p' n') (same : Path.clean (remotePath p n) = Path.clean (remotePath p' n')) : p = p' := by
  obtain ⟨rest, hr⟩ := inside_eq hi
  obtain ⟨rest', hr'⟩ := inside_eq hi'
  exact (namespaceKey_inj h h' (hr.symm.trans (same.trans hr'))).1

theorem inside_ne_bundlePath {p p' n : String} (h : '/' ∉ p.data) (h' : '/' ∉ p'.data) (hi : Inside p n)
    (r : Bool) : Path.clean (remotePath p n) ≠ bundlePath p' r := by
  obtain ⟨rest, hr⟩ := inside_eq hi
  rw [hr, bundlePath_eq]
  intro same
  have tails := congrArg (fun s : String => s.data.head?) (namespaceKey_inj h h' same).2
  cases r <;> simp at tails

theorem inside_ne_metaKey {p n : String} (hi : Inside p n) (domain : String) :
    Path.clean (remotePath p n) ≠ metaKey domain := by
  obtain ⟨rest, hr⟩ := inside_eq hi
  rw [hr]
  exact fun same => metaKey_ne_namespaceKey _ _ _ same.symm

/-- The pointer document of a domain name that is a real element has a clean key. -/
theorem clean_metaKey {domain : String} (real : Path.Real domain.data) :
    Path.clean (metaKey domain) = metaKey domain := by
  have key : metaKey domain = ⟨Path.join ["domains".data, domain.data, "meta.json".data]⟩ := by
    apply String.ext; simp [metaKey, Path.join_cons_cons]
  rw [key]
  refine Path.clean_join (fun e mem => ?_) (List.cons_ne_nil _ _)
  simp only [List.mem_cons, List.mem_singleton, List.not_mem_nil, or_false] at mem
  rcases mem with rfl | rfl | rfl
  · decide
  · exact real
  · decide

theorem clean_bundlePath {p : String} (real : Path.Real p.data) (r : Bool) :
    Path.clean (bundlePath p r) = bundlePath p r := by
  have key : bundlePath p r = ⟨Path.join ["deployments".data, p.data,
      (if r then "raw-bundle.tar.gz" else "optimized-bundle.tar.gz").data]⟩ := by
    apply String.ext; cases r <;> simp [bundlePath, Path.join_cons_cons]
  rw [key]
  refine Path.clean_join (fun e mem => ?_) (List.cons_ne_nil _ _)
  simp only [List.mem_cons, List.mem_singleton, List.not_mem_nil, or_false] at mem
  rcases mem with rfl | rfl | rfl
  · decide
  · exact real
  · cases r <;> decide

end Deployer
end Pubstorm
