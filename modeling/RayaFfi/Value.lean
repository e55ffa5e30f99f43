import Mathlib.Data.List.Basic
import Mathlib.Data.List.GetD

namespace RayaFfi.Value

abbrev Bytes := List UInt8

def lit (s : String) : Bytes := s.toList.map Char.toUInt8

/-- A NUL-terminated C string, given by its bytes before the terminator. -/
structure CStr where
  bytes : Bytes
  no_nul : (0 : UInt8) ∉ bytes
  deriving DecidableEq

def CStr.length (s : CStr) : Nat := s.bytes.length

def CStr.empty : CStr := ⟨[], List.not_mem_nil 0⟩

/-- What a reader of a `const char*` sees of a buffer: the bytes before its first NUL. -/
def cstrOf (s : Bytes) : CStr :=
  ⟨s.takeWhile (· != 0), fun h => by simpa using List.mem_takeWhile_imp h⟩

theorem cstrOf_of_not_mem {s : Bytes} (h : (0 : UInt8) ∉ s) : (cstrOf s).bytes = s :=
  List.takeWhile_eq_self_iff.2 fun x hx => by
    simpa using fun hx0 : x = 0 => h (hx0 ▸ hx)

@[simp] theorem cstrOf_bytes (s : CStr) : cstrOf s.bytes = s := by
  cases s with
  | mk bytes h => simp only [cstrOf, CStr.mk.injEq]; exact cstrOf_of_not_mem h

theorem cstrOf_append_nul {s : Bytes} (h : (0 : UInt8) ∉ s) (t : Bytes) :
    (cstrOf (s ++ 0 :: t)).bytes = s := by
  have hs : ∀ x ∈ s, (x != 0) = true := fun x hx => by
    simpa using fun hx0 : x = 0 => h (hx0 ▸ hx)
  simp [cstrOf, List.takeWhile_append_of_pos hs]

theorem toNat_lt_256 (b : UInt8) : b.toNat < 256 := b.toNat_lt_size

structure I32 where
  val : Int
  min_le : -2147483648 ≤ val
  lt_max : val < 2147483648
  deriving DecidableEq

def I32.zero : I32 := ⟨0, by decide, by decide⟩

def I32.ofUInt8 (b : UInt8) : I32 :=
  ⟨b.toNat, by omega, by have := toNat_lt_256 b; omega⟩

theorem I32.ofUInt8_val_mem (b : UInt8) : 0 ≤ (I32.ofUInt8 b).val ∧ (I32.ofUInt8 b).val ≤ 255 := by
  have := toNat_lt_256 b; simp only [I32.ofUInt8]; omega

theorem I32.ofUInt8_injective {b c : UInt8} (h : I32.ofUInt8 b = I32.ofUInt8 c) : b = c :=
  UInt8.toNat.inj (Int.ofNat.inj (congrArg I32.val h))

inductive RayaValue
  | null
  | bool (b : Bool)
  | i32 (n : I32)
  | string (s : CStr)
  | array (handle : Nat)
  | object (handle : Nat)
  | error (message : CStr)
  deriving DecidableEq

def RayaValue.isError : RayaValue → Bool
  | .error _ => true
  | _ => false

/-- Modelled from the spec: `raya_value_to_string` (declared in `raya/module.h`, which is not
in the repository) gives the string of a string value and `NULL` for every other type. -/
def rayaValueToString : RayaValue → Option CStr
  | .string s => some s
  | _ => none

/-- Modelled from the spec: `raya_value_to_i32` returns the sentinel 0 on a type mismatch. -/
def rayaValueToI32 : RayaValue → I32
  | .i32 n => n
  | _ => I32.zero

def rayaValueFromString (s : Bytes) : RayaValue := .string (cstrOf s)

def rayaValueFromBool (b : Bool) : RayaValue := .bool b

def rayaValueFromI32 (n : I32) : RayaValue := .i32 n

def rayaValueNull : RayaValue := .null

def rayaErrorNew (message : Bytes) : RayaValue := .error (cstrOf message)

@[simp] theorem rayaErrorNew_isError (message : Bytes) : (rayaErrorNew message).isError := rfl

@[simp] theorem rayaValueToString_string (s : CStr) : rayaValueToString (.string s) = some s := rfl

@[simp] theorem rayaValueToI32_i32 (n : I32) : rayaValueToI32 (.i32 n) = n := rfl

end RayaFfi.Value
