import RayaFfi.Abi

namespace RayaFfi.Crypto.Hash

open Value Os Abi

def sha256DigestLength : Nat := 32

def sha512DigestLength : Nat := 64

abbrev Digest (D : Nat) := { h : Bytes // h.length = D }

/-- `SHA256_Init/Update/Final` and their SHA-512 counterparts, taken as given functions of
the bytes hashed. -/
structure Digests where
  sha256 : Bytes → Digest sha256DigestLength
  sha512 : Bytes → Digest sha512DigestLength

def Digests.zero : Digests := ⟨fun _ => ⟨List.replicate 32 0, rfl⟩, fun _ => ⟨List.replicate 64 0, rfl⟩⟩

def hexDigit (d : Nat) : UInt8 := (if d < 10 then 48 + d else 87 + d).toUInt8

structure HexBuf where
  buf : Nat → UInt8
  writes : List Nat

def sprintf02x (off : Nat) (byte : UInt8) : StateM HexBuf Unit := fun s =>
  ((), { buf := Function.update (Function.update (Function.update s.buf
            off (hexDigit (byte.toNat / 16))) (off + 1) (hexDigit (byte.toNat % 16))) (off + 2) 0
         writes := s.writes ++ [off, off + 1, off + 2] })

/-- The loop `sprintf(hex + (i * 2), "%02x", hash[i])` over `i < D`, then `hex[D * 2] = '\0'`,
from whatever the array held before. -/
def hexEncode (D : Nat) (hash : Digest D) (init : Nat → UInt8) : HexBuf :=
  let s := (forRange (fun i => sprintf02x (i * 2) (hash.val.getD i 0)) 0 D ⟨init, []⟩).2
  { buf := Function.update s.buf (D * 2) 0, writes := s.writes ++ [D * 2] }

def HexBuf.array (D : Nat) (s : HexBuf) : Bytes := (List.range (D * 2 + 1)).map s.buf

/-- The array `hex` after the loop. It is not initialised in the source;
`hexEncode_array_eq` shows its prior content never matters. -/
def hexArray (D : Nat) (hash : Digest D) : Bytes := (hexEncode D hash fun _ => 0).array D

def hexString (D : Nat) (hash : Digest D) : CStr := cstrOf (hexArray D hash)

def hashOf (lib : Digests) (algorithm data : CStr) : RayaValue :=
  if algorithm.bytes = lit "sha256" then
    rayaValueFromString (hexArray sha256DigestLength (lib.sha256 data.bytes))
  else if algorithm.bytes = lit "sha512" then
    rayaValueFromString (hexArray sha512DigestLength (lib.sha512 data.bytes))
  else
    rayaErrorNew
      (lit "Unsupported hash algorithm: " ++ algorithm.bytes ++ lit " (supported: sha256, sha512)")

def nativeHash (lib : Digests) : Native := fun _ args argc =>
  checkArgc 2 (lit "hash() requires 2 arguments") argc do
  let some algorithm := rayaValueToString (← arg args 0)
    | return .value (rayaErrorNew (lit "First argument must be a string"))
  let some data := rayaValueToString (← arg args 1)
    | return .value (rayaErrorNew (lit "Second argument must be a string"))
  return .value (hashOf lib algorithm data)

def unhex (c : UInt8) : Nat := if c.toNat ≤ 57 then c.toNat - 48 else c.toNat - 87

def IsHexDigit (c : UInt8) : Prop := (48 ≤ c.toNat ∧ c.toNat ≤ 57) ∨ (97 ≤ c.toNat ∧ c.toNat ≤ 102)

instance (c : UInt8) : Decidable (IsHexDigit c) := inferInstanceAs (Decidable (_ ∨ _))

theorem hexDigit_spec : ∀ d < 16, IsHexDigit (hexDigit d) ∧ unhex (hexDigit d) = d := by
  decide

def digitAt (hash : Bytes) (j : Nat) : UInt8 :=
  if j % 2 = 0 then hexDigit ((hash.getD (j / 2) 0).toNat / 16)
  else hexDigit ((hash.getD (j / 2) 0).toNat % 16)

structure LoopInv (hash : Bytes) (k : Nat) (s : HexBuf) : Prop where
  digits : ∀ j < k * 2, s.buf j = digitAt hash j
  writes : ∀ x ∈ s.writes, x ≤ k * 2

theorem loopInv_step (hash : Bytes) (k : Nat) (s : HexBuf) (h : LoopInv hash k s) :
    LoopInv hash (k + 1) (sprintf02x (k * 2) (hash.getD k 0) s).2 where
  digits j hj := by
    simp only [sprintf02x, Function.update_apply]
    split_ifs with h2 h1 h0
    · omega
    · have hd : (k * 2 + 1) / 2 = k := by omega
      have hm : (k * 2 + 1) % 2 = 1 := by omega
      subst h1; simp [digitAt, hd, hm]
    · subst h0; simp [digitAt]
    · exact h.digits j (by omega)
  writes x hx := by
    simp only [sprintf02x, List.mem_append, List.mem_cons, List.not_mem_nil, or_false] at hx
    rcases hx with hx | rfl | rfl | rfl
    · have := h.writes x hx; omega
    all_goals omega

theorem hexEncode_inv (D : Nat) (hash : Digest D) (init : Nat → UInt8) :
    (∀ j < D * 2, (hexEncode D hash init).buf j = digitAt hash.val j) ∧
    (hexEncode D hash init).buf (D * 2) = 0 ∧
    ∀ x ∈ (hexEncode D hash init).writes, x ≤ D * 2 := by
  have h := forRange_inv (fun i => sprintf02x (i * 2) (hash.val.getD i 0)) (LoopInv hash.val)
    (loopInv_step hash.val) 0 D ⟨init, []⟩ ⟨fun j hj => by omega, fun x hx => by simp at hx⟩
  rw [Nat.zero_add] at h
  refine ⟨fun j hj => ?_, by simp [hexEncode], fun x hx => ?_⟩
  · simp only [hexEncode, Function.update_apply, if_neg (Nat.ne_of_lt hj)]
    exact h.digits j hj
  · simp only [hexEncode, List.mem_append, List.mem_singleton] at hx
    rcases hx with hx | rfl
    · exact h.writes x hx
    · exact le_rfl

theorem digitAt_lt (hash : Bytes) (j : Nat) : ∃ d < 16, digitAt hash j = hexDigit d := by
  unfold digitAt
  have := toNat_lt_256 (hash.getD (j / 2) 0)
  split
  · exact ⟨_, by omega, rfl⟩
  · exact ⟨_, Nat.mod_lt _ (by omega), rfl⟩

theorem digitAt_isHexDigit (hash : Bytes) (j : Nat) : IsHexDigit (digitAt hash j) := by
  obtain ⟨d, hd, he⟩ := digitAt_lt hash j
  exact he ▸ (hexDigit_spec d hd).1

theorem digitAt_ne_zero (hash : Bytes) (j : Nat) : digitAt hash j ≠ 0 := fun h0 =>
  absurd (h0 ▸ digitAt_isHexDigit hash j) (by decide)

theorem unhex_digitAt (hash : Bytes) (i : Nat) :
    unhex (digitAt hash (2 * i)) * 16 + unhex (digitAt hash (2 * i + 1)) =
      (hash.getD i 0).toNat := by
  have hb := toNat_lt_256 (hash.getD i 0)
  have h0 : (2 * i) % 2 = 0 := by omega
  have h1 : ¬(2 * i + 1) % 2 = 0 := by omega
  have d0 : (2 * i) / 2 = i := by omega
  have d1 : (2 * i + 1) / 2 = i := by omega
  rw [digitAt, digitAt, if_pos h0, if_neg h1, d0, d1,
    (hexDigit_spec _ (by omega : (hash.getD i 0).toNat / 16 < 16)).2,
    (hexDigit_spec _ (Nat.mod_lt _ (by omega) : (hash.getD i 0).toNat % 16 < 16)).2]
  omega

theorem hexEncode_array (D : Nat) (hash : Digest D) (init : Nat → UInt8) :
    (hexEncode D hash init).array D = (List.range (D * 2)).map (digitAt hash.val) ++ [0] := by
  obtain ⟨hd, hnul, -⟩ := hexEncode_inv D hash init
  simp only [HexBuf.array, List.range_succ, List.map_append, List.map_singleton, hnul]
  congr 1
  exact List.map_congr_left fun j hj => hd j (List.mem_range.1 hj)

theorem hexString_bytes (D : Nat) (hash : Digest D) :
    (hexString D hash).bytes = (List.range (D * 2)).map (digitAt hash.val) := by
  rw [hexString, hexArray, hexEncode_array]
  exact cstrOf_append_nul (fun h => by
    obtain ⟨j, -, hj⟩ := List.mem_map.1 h
    exact digitAt_ne_zero _ _ hj) []

theorem hexEncode_array_eq (D : Nat) (hash : Digest D) (init : Nat → UInt8) :
    (hexEncode D hash init).array D = (hexString D hash).bytes ++ [0] := by
  rw [hexString_bytes, hexEncode_array]

theorem hexString_getD (D : Nat) (hash : Digest D) {j : Nat} (hj : j < D * 2) :
    (hexString D hash).bytes.getD j 0 = digitAt hash.val j := by
  rw [hexString_bytes, List.getD_eq_getElem _ _ (by simpa using hj)]
  simp

theorem hexString_injective (D : Nat) (hash hash' : Digest D)
    (h : hexString D hash = hexString D hash') : hash = hash' := by
  apply Subtype.ext
  refine List.ext_getElem (hash.2.trans hash'.2.symm) fun i hi hi' => ?_
  have hD : i < D := hash.2 ▸ hi
  have e := unhex_digitAt hash.val i
  rw [← hexString_getD D hash (by omega), ← hexString_getD D hash (by omega), h,
    hexString_getD D hash' (by omega), hexString_getD D hash' (by omega), unhex_digitAt,
    List.getD_eq_getElem _ _ hi, List.getD_eq_getElem _ _ hi'] at e
  exact UInt8.toNat.inj e.symm

theorem nativeHash_two (lib : Digests) (env : Env) (args : List RayaValue) (w : World) :
    nativeHash lib env args 2 w =
      match rayaValueToString (args.getD 0 .null), rayaValueToString (args.getD 1 .null) with
      | none, _ => (.value (rayaErrorNew (lit "First argument must be a string")), w.note (.read 0))
      | some _, none => (.value (rayaErrorNew (lit "Second argument must be a string")),
          (w.note (.read 0)).note (.read 1))
      | some algorithm, some data => (.value (hashOf lib algorithm data),
          (w.note (.read 0)).note (.read 1)) := by
  simp only [nativeHash, checkArgc_self, arg_bind]
  cases rayaValueToString (args.getD 0 .null) with
  | none => rfl
  | some algorithm =>
      simp only [arg_bind]
      cases rayaValueToString (args.getD 1 .null) <;> rfl

theorem nativeHash_reads (lib : Digests) (env : Env) (args : List RayaValue) :
    ReadsBelow 2 (nativeHash lib env args 2) :=
  .checkArgc _ _ <| .bind (.arg args (by decide)) fun _ => by
    split
    · exact .bind (.arg args (by decide)) fun _ => by split <;> exact .pure _
    · exact .pure _

/-- For every digest length `D` (32 for SHA-256, 64 for SHA-512), every digest and every prior
content of `hex`, the loop writes only inside `hex[0 .. 2D]` and leaves `2D` lowercase digits
then a NUL, decoding pairwise to the digest; `native_hash` returns that string for the two
supported names and an error for any other. -/
theorem hash_hex_encoding (lib : Digests) (env : Env) (algorithm data : CStr) (w : World)
    (D : Nat) (hash : Digest D) (init : Nat → UInt8) :
    (∀ x ∈ (hexEncode D hash init).writes, x < D * 2 + 1) ∧
    (hexEncode D hash init).array D = (hexString D hash).bytes ++ [0] ∧
    (hexString D hash).length = D * 2 ∧
    (∀ c ∈ (hexString D hash).bytes, IsHexDigit c) ∧
    (∀ i < D, unhex ((hexString D hash).bytes.getD (2 * i) 0) * 16 +
        unhex ((hexString D hash).bytes.getD (2 * i + 1) 0) = (hash.val.getD i 0).toNat) ∧
    (∀ hash' : Digest D, hexString D hash = hexString D hash' → hash = hash') ∧
    ∃ v, (nativeHash lib env [.string algorithm, .string data] 2 w).1 = .value v ∧
      (v.isError ↔ algorithm.bytes ≠ lit "sha256" ∧ algorithm.bytes ≠ lit "sha512") ∧
      (algorithm.bytes = lit "sha256" →
        v = .string (hexString sha256DigestLength (lib.sha256 data.bytes))) ∧
      (algorithm.bytes = lit "sha512" →
        v = .string (hexString sha512DigestLength (lib.sha512 data.bytes))) := by
  refine ⟨fun x hx => Nat.lt_succ_of_le ((hexEncode_inv D hash init).2.2 x hx),
    hexEncode_array_eq D hash init, by simp [CStr.length, hexString_bytes], ?_,
    fun i hi => ?_, hexString_injective D hash, hashOf lib algorithm data, ?_, ?_⟩
  · intro c hc
    rw [hexString_bytes] at hc
    obtain ⟨j, -, rfl⟩ := List.mem_map.1 hc
    exact digitAt_isHexDigit _ j
  · rw [hexString_getD D hash (by omega), hexString_getD D hash (by omega), unhex_digitAt]
  · simp [nativeHash_two, rayaValueToString]
  · have h256 : lit "sha256" ≠ lit "sha512" := by decide
    unfold hashOf
    by_cases h1 : algorithm.bytes = lit "sha256"
    · simp [h1, h256, rayaValueFromString, RayaValue.isError, hexString]
    · by_cases h2 : algorithm.bytes = lit "sha512"
      · simp [h2, h256.symm, rayaValueFromString, RayaValue.isError, hexString]
      · simp [h1, h2]

end RayaFfi.Crypto.Hash
