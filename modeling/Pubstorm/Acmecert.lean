import Pubstorm.Go.Pem

/-!
# Certificates of a domain

`acmecert`: `SaveCert` encrypts a PEM bundle of certificates, stores it base64-encoded in the
`cert` column and keeps it on the row it was called on; `DecryptedCerts` decodes and decrypts
the column and reads the `CERTIFICATE` blocks back, passing over any other block and any it
cannot parse.

`aesencrypter` and `x509` are not among the sources: their functions are fields of a
`Platform`. `decodeChain_eq` says what the loop of `DecryptedCerts` computes for any bundle:
the certificates of the blocks `pem.Decode` finds, in order. `decryptedCerts_of_saveCert`
adds the column's round trip, and `saveCert_decryptedCerts` is the round trip of a chain,
each block of its bundle read back by `Pem.decode_encode_append`.
-/

namespace Pubstorm.Acmecert

/-- An `acme_certs` row, with the column these functions read and write. The column holds the
base64 text of the encrypted bundle, as its bytes. -/
structure AcmeCert where
  id : Nat
  cert : List UInt8
  deriving DecidableEq, Repr

/-- The packages `acmecert` calls that are not among the sources. `raw` is the DER of a
certificate, the bytes `x509.ParseCertificate` read it from; a parse error is not modelled,
since `DecryptedCerts` passes over the block without reading it. `encrypt` and `decrypt` are
`aesencrypter.Encrypt` and `Decrypt` under `[]byte(aesKey)`, or the texts of their errors. -/
structure Platform (Certificate : Type) where
  raw : Certificate → List UInt8
  parseCertificate : List UInt8 → Option Certificate
  encrypt : List UInt8 → List UInt8 → Except String (List UInt8)
  decrypt : List UInt8 → List UInt8 → Except String (List UInt8)

/-- The errors `SaveCert` and `DecryptedCerts` return: the error `encryptBase64` wraps around
one of `Encrypt`, a `base64.CorruptInputError` (its offset is not modelled), an error of
`Decrypt` as it is, and the error of the update. -/
inductive CertError where
  | encrypting (text : String)
  | corruptInput
  | decrypting (text : String)
  | database
  deriving DecidableEq, Repr

variable {Certificate : Type} (P : Platform Certificate)

def encryptBase64 (data aesKey : List UInt8) : Except CertError (List UInt8) :=
  match P.encrypt data aesKey with
  | .error err => .error (.encrypting ("acmecert.encryptBase64(): error encrypting data, err: " ++ err))
  | .ok cipherText => .ok (Base64.encode cipherText)

/-- `decryptBase64`: `ioutil.ReadAll` of a base64 decoder over the text, then `Decrypt`. -/
def decryptBase64 (data aesKey : List UInt8) : Except CertError (List UInt8) :=
  match Base64.decode data with
  | none => .error .corruptInput
  | some cipherText => (P.decrypt cipherText aesKey).mapError .decrypting

/-- `db.Model(AcmeCert{}).Where("id = ?", id).Update("cert", b)`: the column of the row with
that id, if there is one; an update of no row is no error. -/
def updateCert (rows : Nat → Option AcmeCert) (id : Nat) (b : List UInt8) : Nat → Option AcmeCert :=
  fun k => if k = id then (rows k).map fun row => { row with cert := b } else rows k

/-- `SaveCert` on the row `c` with the table `rows`, `ok` saying whether the update succeeds:
the table, the row `c` after the call, and the error. `c.Cert` is set before the update, so a
failed update leaves it set. -/
def saveCert (ok : Bool) (rows : Nat → Option AcmeCert) (c : AcmeCert) (certBundlePEM aesKey : List UInt8) :
    (Nat → Option AcmeCert) × AcmeCert × Except CertError Unit :=
  match encryptBase64 P certBundlePEM aesKey with
  | .error err => (rows, c, .error err)
  | .ok b =>
    let c := { c with cert := b }
    if ok then (updateCert rows c.id b, c, .ok ()) else (rows, c, .error .database)

/-- The loop of `DecryptedCerts` from `remaining`, the certificates read so far being
`certChain`. -/
def decodeChain (certChain : List Certificate) (remaining : List UInt8) : List Certificate :=
  if _ : remaining.length > 0 then
    match found : Pem.decode remaining with
    | (none, _) => certChain
    | (some block, rest) =>
      if block.type ≠ ascii "CERTIFICATE" ∨ block.headers.length ≠ 0 then decodeChain certChain rest
      else
        match P.parseCertificate block.bytes with
        | none => decodeChain certChain rest
        | some cert => decodeChain (certChain ++ [cert]) rest
  else certChain
termination_by remaining.length
decreasing_by all_goals exact Pem.decode_rest_lt found

def decryptedCerts (c : AcmeCert) (aesKey : List UInt8) : Except CertError (List Certificate) :=
  match decryptBase64 P c.cert aesKey with
  | .error err => .error err
  | .ok decrypted => .ok (decodeChain P [] decrypted)

/-! ### The column -/

theorem decryptBase64_encryptBase64 {data aesKey b : List UInt8}
    (inverse : ∀ data cipherText, P.encrypt data aesKey = .ok cipherText → P.decrypt cipherText aesKey = .ok data)
    (h : encryptBase64 P data aesKey = .ok b) : decryptBase64 P b aesKey = .ok data := by
  unfold encryptBase64 at h
  split at h
  · cases h
  · next cipherText encrypted =>
    cases h
    simp only [decryptBase64, Base64.decode_encode, inverse data cipherText encrypted]
    rfl

theorem saveCert_ok {ok : Bool} {rows rows' : Nat → Option AcmeCert} {c c' : AcmeCert}
    {certBundlePEM aesKey : List UInt8} (h : saveCert P ok rows c certBundlePEM aesKey = (rows', c', .ok ())) :
    encryptBase64 P certBundlePEM aesKey = .ok c'.cert ∧ c'.id = c.id ∧
      ∀ row, rows' c.id = some row → row.cert = c'.cert := by
  unfold saveCert at h
  cases encrypted : encryptBase64 P certBundlePEM aesKey with
  | error => simp [encrypted] at h
  | ok b =>
    cases ok
    · simp [encrypted] at h
    · simp only [encrypted, if_true, Prod.mk.injEq] at h
      obtain ⟨rfl, rfl, -⟩ := h
      refine ⟨rfl, rfl, fun row stored => ?_⟩
      simp only [updateCert, if_true, Option.map_eq_some'] at stored
      obtain ⟨_, _, rfl⟩ := stored
      rfl

/-! ### The loop over the blocks -/

/-- What the loop of `DecryptedCerts` takes from one block: its certificate, if it is a
`CERTIFICATE` block without headers that parses. -/
def certificateOf (block : Pem.Block) : Option Certificate :=
  if block.type ≠ ascii "CERTIFICATE" ∨ block.headers.length ≠ 0 then none
  else P.parseCertificate block.bytes

theorem decodeChain_of_none {certChain : List Certificate} {data rest : List UInt8}
    (h : Pem.decode data = (none, rest)) : decodeChain P certChain data = certChain := by
  rw [decodeChain]
  split
  · split
    · rfl
    · next found => rw [h] at found; cases found
  · rfl

theorem decodeChain_of_some {certChain : List Certificate} {data rest : List UInt8} {block : Pem.Block}
    (h : Pem.decode data = (some block, rest)) :
    decodeChain P certChain data = decodeChain P (certChain ++ (certificateOf P block).toList) rest := by
  rw [decodeChain, dif_pos ((Nat.zero_le _).trans_lt (Pem.decode_rest_lt h))]
  split
  · next found => rw [h] at found; cases found
  · next found =>
    rw [h] at found
    cases found
    unfold certificateOf
    split
    · simp
    · split <;> simp_all

/-- The loop of `DecryptedCerts` appends the certificates of the blocks `Decode` finds, in the
order it finds them, and passes over every other block. -/
theorem decodeChain_eq (certChain : List Certificate) (data : List UInt8) :
    decodeChain P certChain data = certChain ++ (Pem.blocks data).filterMap (certificateOf P) := by
  match found : Pem.decode data with
  | (none, _) => rw [decodeChain_of_none P found, Pem.blocks_of_none found, List.filterMap_nil, List.append_nil]
  | (some block, rest) =>
    rw [decodeChain_of_some P found, Pem.blocks_of_some found, decodeChain_eq _ rest, List.filterMap_cons]
    cases certificateOf P block <;> simp
termination_by data.length
decreasing_by exact Pem.decode_rest_lt found

/-! ### The chain -/

/-- The bundle of a chain as `SaveCert` is given it: the `CERTIFICATE` blocks of its
certificates one after another. -/
def chainPEM (cs : List Certificate) : List UInt8 :=
  (cs.map fun cert => Pem.encode (ascii "CERTIFICATE") (P.raw cert)).flatten

theorem blocks_chainPEM (cs : List Certificate) :
    Pem.blocks (chainPEM P cs) = cs.map fun cert => ⟨ascii "CERTIFICATE", [], P.raw cert⟩ := by
  induction cs with
  | nil => exact Pem.blocks_nil
  | cons cert cs ih =>
    rw [chainPEM, List.map_cons, List.flatten_cons, ← chainPEM,
      Pem.blocks_encode_append _ _ (by decide) (by decide), ih, List.map_cons]

theorem certificates_chainPEM (cs : List Certificate)
    (certificates : ∀ cert ∈ cs, P.parseCertificate (P.raw cert) = some cert) :
    (Pem.blocks (chainPEM P cs)).filterMap (certificateOf P) = cs := by
  rw [blocks_chainPEM, List.filterMap_map]
  conv_rhs => rw [← List.filterMap_some cs]
  exact List.filterMap_congr fun cert mem => by simpa [certificateOf] using certificates cert mem

/-! ### `SaveCert`, then `DecryptedCerts` -/

/-- After a `SaveCert` of any bundle that succeeds, `DecryptedCerts` gives the certificates of
the bundle's blocks, from the row it was called on and from the row stored under its id. -/
theorem decryptedCerts_of_saveCert {ok : Bool} {rows rows' : Nat → Option AcmeCert} {c c' : AcmeCert}
    {certBundlePEM aesKey : List UInt8}
    (inverse : ∀ data cipherText, P.encrypt data aesKey = .ok cipherText → P.decrypt cipherText aesKey = .ok data)
    (saved : saveCert P ok rows c certBundlePEM aesKey = (rows', c', .ok ())) (row : AcmeCert)
    (read : row = c' ∨ rows' c.id = some row) :
    decryptedCerts P row aesKey = .ok ((Pem.blocks certBundlePEM).filterMap (certificateOf P)) := by
  obtain ⟨encrypted, -, stored⟩ := saveCert_ok P saved
  have same : row.cert = c'.cert := read.elim (congrArg AcmeCert.cert) (stored row)
  rw [decryptedCerts, same, decryptBase64_encryptBase64 P inverse encrypted]
  exact congrArg Except.ok (decodeChain_eq P [] certBundlePEM)

/-- A chain saved with `SaveCert` reads back with `DecryptedCerts` as the same chain, in
order, from the row `SaveCert` was called on and from the row stored under its id. -/
theorem saveCert_decryptedCerts {ok : Bool} {rows rows' : Nat → Option AcmeCert} {c c' : AcmeCert}
    {cs : List Certificate} {aesKey : List UInt8}
    (certificates : ∀ cert ∈ cs, P.parseCertificate (P.raw cert) = some cert)
    (inverse : ∀ data cipherText, P.encrypt data aesKey = .ok cipherText → P.decrypt cipherText aesKey = .ok data)
    (saved : saveCert P ok rows c (chainPEM P cs) aesKey = (rows', c', .ok ())) :
    decryptedCerts P c' aesKey = .ok cs ∧
      ∀ row, rows' c.id = some row → decryptedCerts P row aesKey = .ok cs := by
  have read := decryptedCerts_of_saveCert P inverse saved
  rw [certificates_chainPEM P cs certificates] at read
  exact ⟨read c' (.inl rfl), fun row stored => read row (.inr stored)⟩

theorem saveCert_decryptedCerts_plain :
    let P : Platform (List UInt8) := ⟨id, some, fun data _ => .ok data, fun cipherText _ => .ok cipherText⟩
    let cs : List (List UInt8) := [[1, 2], [3]]
    let c : AcmeCert := ⟨1, []⟩
    let saved := saveCert P true (fun _ => none) c (chainPEM P cs) []
    (∀ cert ∈ cs, P.parseCertificate (P.raw cert) = some cert) ∧
      (∀ data cipherText, P.encrypt data [] = .ok cipherText → P.decrypt cipherText [] = .ok data) ∧
      saved = (saved.1, saved.2.1, .ok ()) ∧
      (decryptedCerts P saved.2.1 [] = .ok cs ∧
        ∀ row, saved.1 c.id = some row → decryptedCerts P row [] = .ok cs) :=
  ⟨fun _ _ => rfl, fun _ _ encrypted => encrypted.symm, rfl,
    @saveCert_decryptedCerts _ _ true (fun _ => none) _ _ _ _ _ (fun _ _ => rfl)
      (fun _ _ encrypted => encrypted.symm) rfl⟩

/-! ### The private keys -/

inductive RawKey (Key : Type) where
  | rsa (key : Key)
  | other
  deriving DecidableEq, Repr

/-- The packages `New` and the key getters call that are not among the sources.
`ssh.ParseRawPrivateKey` decodes the first PEM block of its input; `parseKeyBlock` is what it
does with that block, by its type. The keys `rsa.GenerateKey` draws are arguments of `new`. -/
structure KeyPlatform (Key : Type) where
  marshalPKCS1PrivateKey : Key → List UInt8
  parseKeyBlock : Pem.Block → Except String (RawKey Key)

/-- The errors `New` and the key getters return: an error of `encryptBase64` or
`decryptBase64`, of `rsa.GenerateKey`, of `ssh.ParseRawPrivateKey`, and
`errors.New("private key is not an RSA key")`. -/
inductive KeyError where
  | cert (err : CertError)
  | generating (text : String)
  | parsing (text : String)
  | notRSA
  deriving DecidableEq, Repr

/-- An `acme_certs` row with its domain and the columns of the two keys as well. -/
structure KeyedCert extends AcmeCert where
  domainId : Nat
  letsencryptKey : List UInt8
  privateKey : List UInt8
  deriving DecidableEq, Repr

variable {Key : Type} (K : KeyPlatform Key)

def parseRawPrivateKey (pemBytes : List UInt8) : Except String (RawKey Key) :=
  match (Pem.decode pemBytes).1 with
  | none => .error "ssh: no key found"
  | some block => K.parseKeyBlock block

def encryptPrivateKey (privKey : Key) (aesKey : List UInt8) : Except CertError (List UInt8) :=
  encryptBase64 P (Pem.encode (ascii "RSA PRIVATE KEY") (K.marshalPKCS1PrivateKey privKey)) aesKey

def decryptPrivateKey (privKey aesKey : List UInt8) : Except KeyError Key :=
  match decryptBase64 P privKey aesKey with
  | .error err => .error (.cert err)
  | .ok decrypted =>
    match parseRawPrivateKey K decrypted with
    | .error err => .error (.parsing err)
    | .ok (.rsa rpk) => .ok rpk
    | .ok .other => .error .notRSA

/-- `New(domainID, aesKey)`, given what the two calls of `rsa.GenerateKey` return; the second
is not drawn when the first fails or cannot be encrypted. -/
def new (domainID : Nat) (aesKey : List UInt8) (leKey privKey : Except String Key) :
    Except KeyError KeyedCert :=
  match leKey with
  | .error err => .error (.generating err)
  | .ok leKey =>
    match encryptPrivateKey P K leKey aesKey with
    | .error err => .error (.cert err)
    | .ok letsencryptKey =>
      match privKey with
      | .error err => .error (.generating err)
      | .ok privKey =>
        match encryptPrivateKey P K privKey aesKey with
        | .error err => .error (.cert err)
        | .ok privateKey => .ok ⟨⟨0, []⟩, domainID, letsencryptKey, privateKey⟩

def KeyedCert.isValid (c : KeyedCert) : Bool :=
  c.domainId != 0 && c.letsencryptKey != [] && c.privateKey != [] && c.cert != []

def decryptedLetsencryptKey (c : KeyedCert) (aesKey : List UInt8) : Except KeyError Key :=
  decryptPrivateKey P K c.letsencryptKey aesKey

def decryptedPrivateKey (c : KeyedCert) (aesKey : List UInt8) : Except KeyError Key :=
  decryptPrivateKey P K c.privateKey aesKey

/-- A key `encryptPrivateKey` wrote reads back with `decryptPrivateKey`, when `Decrypt` undoes
`Encrypt` and `ssh` reads an `RSA PRIVATE KEY` block of a key's PKCS #1 DER as that key. -/
theorem decryptPrivateKey_encryptPrivateKey {k : Key} {aesKey b : List UInt8}
    (inverse : ∀ data cipherText, P.encrypt data aesKey = .ok cipherText → P.decrypt cipherText aesKey = .ok data)
    (rsa : ∀ k, K.parseKeyBlock ⟨ascii "RSA PRIVATE KEY", [], K.marshalPKCS1PrivateKey k⟩ = .ok (.rsa k))
    (h : encryptPrivateKey P K k aesKey = .ok b) : decryptPrivateKey P K b aesKey = .ok k := by
  rw [decryptPrivateKey, decryptBase64_encryptBase64 P inverse h]
  simp only [parseRawPrivateKey]
  rw [← List.append_nil (Pem.encode _ _), Pem.decode_encode_append _ _ (by decide) (by decide)]
  simp only [rsa]

/-- After `New` succeeds, the row belongs to its domain, is not yet valid since it holds no
certificate, and its two columns decrypt to the two keys drawn, the Let's Encrypt key
first. -/
theorem new_decryptedKeys {domainID : Nat} {aesKey : List UInt8} {leKey privKey : Key} {c : KeyedCert}
    (inverse : ∀ data cipherText, P.encrypt data aesKey = .ok cipherText → P.decrypt cipherText aesKey = .ok data)
    (rsa : ∀ k, K.parseKeyBlock ⟨ascii "RSA PRIVATE KEY", [], K.marshalPKCS1PrivateKey k⟩ = .ok (.rsa k))
    (h : new P K domainID aesKey (.ok leKey) (.ok privKey) = .ok c) :
    decryptedLetsencryptKey P K c aesKey = .ok leKey ∧ decryptedPrivateKey P K c aesKey = .ok privKey ∧
      c.domainId = domainID ∧ c.isValid = false := by
  unfold new at h
  cases first : encryptPrivateKey P K leKey aesKey with
  | error => simp [first] at h
  | ok letsencryptKey =>
    cases second : encryptPrivateKey P K privKey aesKey with
    | error => simp [first, second] at h
    | ok privateKey =>
      simp only [first, second, Except.ok.injEq] at h
      subst h
      exact ⟨decryptPrivateKey_encryptPrivateKey P K inverse rsa first,
        decryptPrivateKey_encryptPrivateKey P K inverse rsa second, rfl, by simp [KeyedCert.isValid]⟩

theorem new_decryptedKeys_plain :
    let P : Platform (List UInt8) := ⟨id, some, fun data _ => .ok data, fun cipherText _ => .ok cipherText⟩
    let K : KeyPlatform (List UInt8) :=
      ⟨id, fun block => .ok (if block.type = ascii "RSA PRIVATE KEY" then .rsa block.bytes else .other)⟩
    (∀ data cipherText, P.encrypt data [] = .ok cipherText → P.decrypt cipherText [] = .ok data) ∧
      (∀ k, K.parseKeyBlock ⟨ascii "RSA PRIVATE KEY", [], K.marshalPKCS1PrivateKey k⟩ = .ok (.rsa k)) ∧
      ∃ c, new P K 7 [] (.ok [1, 2]) (.ok [3]) = .ok c ∧
        (decryptedLetsencryptKey P K c [] = .ok [1, 2] ∧ decryptedPrivateKey P K c [] = .ok [3] ∧
          c.domainId = 7 ∧ c.isValid = false) :=
  ⟨fun _ _ encrypted => encrypted.symm, fun _ => by simp, _, rfl,
    new_decryptedKeys _ _ (fun _ _ encrypted => encrypted.symm) (fun _ => by simp) rfl⟩

end Pubstorm.Acmecert
