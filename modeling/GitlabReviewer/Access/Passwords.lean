import GitlabReviewer.Gitlab.Pagination

/-! # The shared password

The password is kept as `pbkdf2$<iterations>$<salt_hex>$<hash_hex>`. A password
is right if its digest, with the salt and the iterations of the stored text, is
the digest of that text.
-/
namespace GitlabReviewer.Access
open Python Settings

abbrev Bytes := List (Fin 256)

/-- `bytes.hex`. -/
def hexBytes (bytes : Bytes) : Text := bytes.flatMap fun b : Fin 256 => [hexDigit (b / 16), hexDigit (b % 16)]

/-- The blanks `bytes.fromhex` skips between two bytes. -/
def isAsciiSpace (c : Char) : Bool := c == ' ' || (9 ≤ c.toNat && c.toNat ≤ 13)

def byteOf (c d : Char) : Option (Fin 256) := do
  let high ← hexValue c
  let low ← hexValue d
  some (Fin.ofNat 256 (16 * high + low))

/-- `bytes.fromhex`; none is its `ValueError`. -/
def fromHex : Text → Option Bytes
  | [] => some []
  | [c] => if isAsciiSpace c then some [] else none
  | c :: d :: rest =>
      if isAsciiSpace c then fromHex (d :: rest)
      else do
        let byte ← byteOf c d
        let bytes ← fromHex rest
        some (byte :: bytes)

/-- The digest of a password, as `hashlib` computes it with SHA-256. -/
abbrev Digest := Text → Bytes → ℕ → Bytes

section Stored
variable (I : Interpreter) (digest : Digest)

/-- `hashlib.pbkdf2_hmac`; none is the error of an iteration count out of its range. -/
def pbkdf2Hmac (password : Text) (salt : Bytes) (iterations : ℤ) : Option Bytes :=
  if 1 ≤ iterations ∧ iterations ≤ 2147483647 then some (digest password salt iterations.toNat) else none

/-- Hash a shared password. -/
def hashPassword (salt : Bytes) (iterations : ℕ) (password : Text) : Option Text :=
  (pbkdf2Hmac digest password salt iterations).map fun hash =>
    "pbkdf2$".toList ++ decimal iterations ++ "$".toList ++ hexBytes salt ++ "$".toList ++ hexBytes hash

/-- Verify a password; none is an error that is raised. -/
def verifyPassword (password stored : Text) : Option Bool :=
  match splitOn '$' stored with
  | [scheme, iterations, saltHex, hashHex] =>
      if scheme ≠ "pbkdf2".toList then some false
      else match parseInt I iterations, fromHex saltHex, fromHex hashHex with
        | some iterations, some salt, some expected =>
            (pbkdf2Hmac digest password salt iterations).map (· == expected)
        | _, _, _ => some false
  | _ => some false

end Stored

theorem hexDigit_plain : ∀ n < 16, isAsciiSpace (hexDigit n) = false ∧ hexDigit n ≠ '$' := by decide

theorem high_lt (b : Fin 256) : (b : ℕ) / 16 < 16 := Nat.div_lt_of_lt_mul b.isLt
theorem low_lt (b : Fin 256) : (b : ℕ) % 16 < 16 := Nat.mod_lt _ (by decide)

theorem byteOf_hexDigits (b : Fin 256) : byteOf (hexDigit (b / 16)) (hexDigit (b % 16)) = some b := by
  unfold byteOf
  rw [hexValue_hexDigit _ (high_lt b), hexValue_hexDigit _ (low_lt b)]
  show some (Fin.ofNat 256 (16 * ((b : ℕ) / 16) + (b : ℕ) % 16)) = some b
  rw [Nat.div_add_mod]
  congr 1
  exact Fin.ext (Nat.mod_eq_of_lt b.isLt)

theorem fromHex_hexBytes (bytes : Bytes) : fromHex (hexBytes bytes) = some bytes := by
  induction bytes with
  | nil => rfl
  | cons b bytes ih =>
    have hspace := (hexDigit_plain _ (high_lt b)).1
    show fromHex (hexDigit (b / 16) :: hexDigit (b % 16) :: hexBytes bytes) = _
    rw [fromHex, hspace, byteOf_hexDigits, ih]
    rfl

theorem dollar_hexBytes (bytes : Bytes) : '$' ∉ hexBytes bytes := by
  intro h
  obtain ⟨b, -, hb⟩ := List.mem_flatMap.mp h
  rcases List.mem_cons.mp hb with he | hb
  · exact (hexDigit_plain _ (high_lt b)).2 he.symm
  · exact (hexDigit_plain _ (low_lt b)).2 (List.mem_singleton.mp hb).symm

theorem dollar_decimal (n : ℕ) : '$' ∉ decimal n := by
  intro h
  exact absurd (isDigit_decimal n _ h) (by decide)

variable {I : Interpreter} {digest : Digest}

theorem hashPassword_eq {salt : Bytes} {iterations : ℕ} {secret stored : Text}
    (h : hashPassword digest salt iterations secret = some stored) : (1 ≤ iterations ∧ iterations ≤ 2147483647) ∧
      splitOn '$' stored = ["pbkdf2".toList, decimal iterations, hexBytes salt, hexBytes (digest secret salt iterations)] := by
  obtain ⟨hash, hhash, rfl⟩ := Option.map_eq_some_iff.mp h
  unfold pbkdf2Hmac at hhash
  split at hhash
  · rename_i hrange
    obtain rfl := Option.some.inj hhash
    refine ⟨by omega, ?_⟩
    rw [Int.toNat_natCast]
    have hshape : "pbkdf2$".toList ++ decimal iterations ++ "$".toList ++ hexBytes salt ++ "$".toList ++
        hexBytes (digest secret salt iterations) = "pbkdf2".toList ++ '$' :: (decimal iterations ++ '$' ::
          (hexBytes salt ++ '$' :: hexBytes (digest secret salt iterations))) := by simp
    rw [hshape, splitOn_append, splitOn_append, splitOn_append, splitOn_of_not_mem (by decide),
      splitOn_of_not_mem (dollar_decimal _), splitOn_of_not_mem (dollar_hexBytes _), splitOn_of_not_mem (dollar_hexBytes _)]
    rfl
  · cases hhash

/-- A password is right for the hash of another exactly if their digests are the same. -/
theorem verifyPassword_hashPassword (hI : Gitlab.AsciiDigits I) {salt : Bytes} {iterations : ℕ} {secret stored : Text}
    (h : hashPassword digest salt iterations secret = some stored) (password : Text) :
    verifyPassword I digest password stored = some (digest password salt iterations == digest secret salt iterations) := by
  obtain ⟨hrange, hsplit⟩ := hashPassword_eq h
  have hshort : ¬ intMaxStrDigits < (decimal iterations).length :=
    Nat.not_lt.mpr (length_decimal (hrange.2.trans_lt (by decide +kernel)))
  have hcast : 1 ≤ (iterations : ℤ) ∧ (iterations : ℤ) ≤ 2147483647 := by omega
  unfold verifyPassword
  rw [hsplit]
  simp only [ne_eq, not_true_eq_false, if_false, Gitlab.parseInt_decimal_eq hI, if_neg hshort, fromHex_hexBytes, pbkdf2Hmac,
    if_pos hcast, Int.toNat_natCast, Option.map_some]

end GitlabReviewer.Access
