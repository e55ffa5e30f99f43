import RayaFfi.Abi
import Mathlib.Data.Nat.Bitwise

namespace RayaFfi.Crypto.ConstantTimeEqual

open Value Os Abi

inductive Access
  | a (i : Nat)
  | b (i : Nat)
  deriving DecidableEq

def Access.event : Access → Event
  | .a i => .fetch 0 i
  | .b i => .fetch 1 i

structure CtLoop where
  result : Nat
  reads : List Access

def byteAt (s : CStr) (i : Nat) : UInt8 := if i < s.length then s.bytes.getD i 0 else 0

def roundReads (lenA lenB i : Nat) : List Access :=
  (if i < lenA then [.a i] else []) ++ (if i < lenB then [.b i] else [])

def ctStep (a b : CStr) (i : Nat) : StateM CtLoop Unit := fun s =>
  ((), { result := s.result ||| ((byteAt a i).toNat ^^^ (byteAt b i).toNat)
         reads := s.reads ++ roundReads a.length b.length i })

def compareLoop (a b : CStr) : CtLoop :=
  (forRange (ctStep a b) 0 (if a.length > b.length then a.length else b.length) ⟨0, []⟩).2

/-- `result |= (len_a ^ len_b)` computes in `size_t` and stores back into the `int`, which
keeps the low 32 bits; the answer is `result == 0`. -/
def constantTimeEqual (a b : CStr) : Bool :=
  ((compareLoop a b).result ||| (a.length ^^^ b.length)) % 2 ^ 32 == 0

/-- `strlen(s)` fetches every byte up to and including the terminator. -/
def strlenReads (which : Nat → Access) (len : Nat) : List Access :=
  (List.range (len + 1)).map which

def fetches (a b : CStr) : List Access :=
  strlenReads .a a.length ++ strlenReads .b b.length ++ (compareLoop a b).reads

def nativeConstantTimeEqual : Native := fun _ args argc =>
  checkArgc 2 (lit "constantTimeEqual() requires 2 arguments") argc do
  let a := rayaValueToString (← arg args 0)
  let b := rayaValueToString (← arg args 1)
  match a, b with
  | some a, some b =>
      noteAll ((fetches a b).map Access.event)
      return .value (rayaValueFromBool (constantTimeEqual a b))
  | _, _ => return .value (rayaErrorNew (lit "Both arguments must be strings"))

def accesses (lenA lenB : Nat) : Nat → List Access
  | 0 => []
  | k + 1 => accesses lenA lenB k ++ roundReads lenA lenB k

theorem lor_eq_zero {x y : Nat} : x ||| y = 0 ↔ x = 0 ∧ y = 0 := by
  refine ⟨fun h => ?_, fun ⟨hx, hy⟩ => by simp [hx, hy]⟩
  have hb (i : Nat) : x.testBit i = false ∧ y.testBit i = false := by
    simpa using congrArg (Nat.testBit · i) h
  exact ⟨Nat.eq_of_testBit_eq fun i => by simp [(hb i).1],
    Nat.eq_of_testBit_eq fun i => by simp [(hb i).2]⟩

theorem eq_zero_of_lor_mod {r x : Nat} (hr : r < 2 ^ 32) (h : (r ||| x) % 2 ^ 32 = 0) :
    r = 0 := by
  apply Nat.eq_of_testBit_eq
  intro i
  by_cases hi : i < 32
  · have h' : ((r ||| x) % 2 ^ 32).testBit i = false := by rw [h, Nat.zero_testBit]
    rw [Nat.testBit_mod_two_pow, Nat.testBit_or] at h'
    simp only [hi, decide_True, Bool.true_and, Bool.or_eq_false_iff] at h'
    simp [h'.1]
  · rw [Nat.testBit_lt_two_pow (lt_of_lt_of_le hr (Nat.pow_le_pow_right Nat.two_pos (by omega)))]
    simp

theorem byteAt_of_lt {s : CStr} {i : Nat} (h : i < s.length) : byteAt s i = s.bytes.getD i 0 :=
  if_pos h

theorem byteAt_of_le {s : CStr} {i : Nat} (h : s.length ≤ i) : byteAt s i = 0 :=
  if_neg (by omega)

theorem byteAt_ne_zero {s : CStr} {i : Nat} (h : i < s.length) : byteAt s i ≠ 0 := by
  rw [byteAt_of_lt h, List.getD_eq_getElem _ _ h]
  exact fun h0 => s.no_nul (h0 ▸ List.getElem_mem h)

/-- Zero padding past the shorter string meets a non-NUL byte of the longer one, so the
padded bytes agree at every position below `max_len` only for equal strings. -/
theorem padded_eq_iff (a b : CStr) :
    (∀ i < max a.length b.length, byteAt a i = byteAt b i) ↔
      a.length = b.length ∧ ∀ i < a.length, a.bytes.getD i 0 = b.bytes.getD i 0 := by
  constructor
  · intro h
    have hl : a.length = b.length := by
      by_contra hne
      rcases Nat.lt_or_gt_of_ne hne with hlt | hlt
      · exact byteAt_ne_zero hlt ((h a.length (by omega)).symm.trans (byteAt_of_le le_rfl))
      · exact byteAt_ne_zero hlt ((h b.length (by omega)).trans (byteAt_of_le le_rfl))
    refine ⟨hl, fun i hi => ?_⟩
    have := h i (by omega)
    rwa [byteAt_of_lt hi, byteAt_of_lt (hl ▸ hi)] at this
  · rintro ⟨hl, h⟩ i hi
    by_cases ha : i < a.length
    · rw [byteAt_of_lt ha, byteAt_of_lt (hl ▸ ha), h i ha]
    · rw [byteAt_of_le (by omega), byteAt_of_le (by omega)]

structure Inv (a b : CStr) (k : Nat) (s : CtLoop) : Prop where
  zero_iff : s.result = 0 ↔ ∀ i < k, byteAt a i = byteAt b i
  lt : s.result < 2 ^ 8
  reads : s.reads = accesses a.length b.length k

theorem inv_step (a b : CStr) (k : Nat) (s : CtLoop) (h : Inv a b k s) :
    Inv a b (k + 1) (ctStep a b k s).2 where
  zero_iff := by
    have hk : (byteAt a k).toNat ^^^ (byteAt b k).toNat = 0 ↔ byteAt a k = byteAt b k :=
      Nat.xor_eq_zero.trans ⟨UInt8.toNat.inj, congrArg _⟩
    simp only [ctStep, lor_eq_zero, h.zero_iff, hk]
    constructor
    · rintro ⟨hs, hk⟩ i hi
      rcases Nat.lt_succ_iff_lt_or_eq.1 hi with hi | rfl
      · exact hs i hi
      · exact hk
    · intro hs
      exact ⟨fun i hi => hs i (by omega), hs k (by omega)⟩
  lt := Nat.or_lt_two_pow h.lt (Nat.xor_lt_two_pow (toNat_lt_256 _) (toNat_lt_256 _))
  reads := by simp [ctStep, h.reads, accesses]

theorem compareLoop_inv (a b : CStr) :
    Inv a b (max a.length b.length) (compareLoop a b) := by
  have hmax : (if a.length > b.length then a.length else b.length) = max a.length b.length := by
    split <;> omega
  unfold compareLoop
  rw [hmax]
  simpa only [Nat.zero_add] using forRange_inv (ctStep a b) (Inv a b) (inv_step a b) 0
    (max a.length b.length) ⟨0, []⟩ ⟨by simp, by decide, rfl⟩

theorem mem_accesses_a {lenA lenB k i : Nat} (h : Access.a i ∈ accesses lenA lenB k) : i < lenA := by
  induction k with
  | zero => simp [accesses] at h
  | succ k ih =>
      simp only [accesses, roundReads, List.mem_append] at h
      rcases h with h | h | h
      · exact ih h
      · split at h <;> simp_all
      · split at h <;> simp_all

theorem mem_accesses_b {lenA lenB k i : Nat} (h : Access.b i ∈ accesses lenA lenB k) : i < lenB := by
  induction k with
  | zero => simp [accesses] at h
  | succ k ih =>
      simp only [accesses, roundReads, List.mem_append] at h
      rcases h with h | h | h
      · exact ih h
      · split at h <;> simp_all
      · split at h <;> simp_all

theorem constantTimeEqual_eq (a b : CStr) :
    constantTimeEqual a b =
      decide (a.length = b.length ∧ ∀ i < a.length, a.bytes.getD i 0 = b.bytes.getD i 0) := by
  have h := compareLoop_inv a b
  have hr := h.zero_iff.trans (padded_eq_iff a b)
  unfold constantTimeEqual
  by_cases hp : a.length = b.length ∧ ∀ i < a.length, a.bytes.getD i 0 = b.bytes.getD i 0
  · rw [decide_eq_true hp, hr.2 hp, hp.1, Nat.xor_self]
    rfl
  · rw [decide_eq_false hp]
    exact beq_eq_false_iff_ne.2
      fun h0 => hp (hr.1 (eq_zero_of_lor_mod (lt_trans h.lt (by decide)) h0))

theorem nativeConstantTimeEqual_two (env : Env) (args : List RayaValue) (w : World) :
    nativeConstantTimeEqual env args 2 w =
      match rayaValueToString (args.getD 0 .null), rayaValueToString (args.getD 1 .null) with
      | some a, some b => (.value (rayaValueFromBool (constantTimeEqual a b)),
          ((w.note (.read 0)).note (.read 1)).noteAll ((fetches a b).map Access.event))
      | _, _ => (.value (rayaErrorNew (lit "Both arguments must be strings")),
          (w.note (.read 0)).note (.read 1)) := by
  simp only [nativeConstantTimeEqual, checkArgc_self, arg_bind]
  cases rayaValueToString (args.getD 0 .null) <;> cases rayaValueToString (args.getD 1 .null) <;> rfl

theorem Access.event_ne_read (x : Access) (i : Nat) : x.event ≠ .read i := by
  cases x <;> nofun

theorem nativeConstantTimeEqual_reads (env : Env) (args : List RayaValue) :
    ReadsBelow 2 (nativeConstantTimeEqual env args 2) :=
  .checkArgc _ _ <| .bind (.arg args (by decide)) fun _ => .bind (.arg args (by decide)) fun _ => by
    dsimp only
    split
    · exact .bind (.noteAll fun i hi => by
        obtain ⟨x, -, hx⟩ := List.mem_map.1 hi
        exact Access.event_ne_read x i hx) fun _ => .pure _
    · exact .pure _

/-- For two strings the answer is equality of their lengths and of every byte below them,
and the loop fetches `a[i]` only below `len_a` and `b[i]` only below `len_b`. -/
theorem constantTimeEqual_correct (env : Env) (a b : CStr) (w : World) :
    nativeConstantTimeEqual env [.string a, .string b] 2 w =
      (.value (.bool (decide (a.length = b.length ∧
          ∀ i < a.length, a.bytes.getD i 0 = b.bytes.getD i 0))),
        ((w.note (.read 0)).note (.read 1)).noteAll ((fetches a b).map Access.event)) ∧
    (∀ i, Access.a i ∈ (compareLoop a b).reads → i < a.length) ∧
    (∀ i, Access.b i ∈ (compareLoop a b).reads → i < b.length) := by
  refine ⟨?_, fun i hi => ?_, fun i hi => ?_⟩
  · simp [nativeConstantTimeEqual_two, rayaValueToString, rayaValueFromBool, constantTimeEqual_eq]
  · rw [(compareLoop_inv a b).reads] at hi
    exact mem_accesses_a hi
  · rw [(compareLoop_inv a b).reads] at hi
    exact mem_accesses_b hi

theorem fetches_eq (a b : CStr) :
    fetches a b = strlenReads .a a.length ++ strlenReads .b b.length ++
      accesses a.length b.length (max a.length b.length) := by
  rw [fetches, (compareLoop_inv a b).reads]

end RayaFfi.Crypto.ConstantTimeEqual
