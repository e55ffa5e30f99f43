import RayaFfi.Abi
import Mathlib.Data.Fintype.BigOperators
import Mathlib.Tactic.PushNeg

namespace RayaFfi.Crypto.RandomBytes

open Value Os Abi

variable {σ : Type}

/-- `std::mt19937 gen(rd())` drawn through `uniform_int_distribution<>(0, 255)`, taken as an
arbitrary deterministic engine: a state built from the 32-bit seed, and one draw per call. -/
structure Engine (σ : Type) where
  seed : UInt32 → σ
  dis : σ → Int × σ

def toUInt8 (d : Int) : UInt8 := (d % 256).toNat.toUInt8

structure Fill (σ : Type) where
  gen : σ
  bytes : List UInt8

def fillStep (eng : Engine σ) (i : Nat) : StateM (Fill σ) Unit := fun s =>
  ((), { gen := (eng.dis s.gen).2, bytes := s.bytes.set i (toUInt8 (eng.dis s.gen).1) })

def fill (eng : Engine σ) (rd : UInt32) (n : Nat) : List UInt8 :=
  (forRange (fillStep eng) 0 n ⟨eng.seed rd, List.replicate n 0⟩).2.bytes

def Engine.zero : Engine UInt32 := ⟨fun r => r, fun s => (0, s)⟩

/-- `std::random_device rd; std::mt19937 gen(rd());` stands outside any `try`, so an exception
of the device leaves the native function. -/
def nativeRandomBytes (eng : Engine σ) : Native := fun env args argc =>
  checkArgc 1 (lit "randomBytes() requires 1 argument") argc do
  let length := (rayaValueToI32 (← arg args 0)).val
  if length ≤ 0 ∨ length > 1024 * 1024 then
    return .value (rayaErrorNew (lit "Length must be between 1 and 1048576"))
  match env.rd with
  | .throws what => return .escapes what
  | .answers rd =>
      let bytes := fill eng rd length.toNat
      let array ← rayaArrayNew length.toNat
      forRange (fun i => rayaArraySet array i (rayaValueFromI32 (I32.ofUInt8 (bytes.getD i 0))))
        0 length.toNat
      return .value array

def arrayLog (h : Nat) (v : List UInt8) : List Event :=
  .read 0 :: .arrayNew h v.length ::
    (List.range v.length).map fun i => .arraySet (.array h) i (.i32 (I32.ofUInt8 (v.getD i 0)))

theorem fill_length (eng : Engine σ) (rd : UInt32) (n : Nat) : (fill eng rd n).length = n := by
  have := forRange_inv (fillStep eng) (fun _ s => s.bytes.length = n)
    (fun i s hs => by simpa [fillStep] using hs) 0 n ⟨eng.seed rd, List.replicate n 0⟩ (by simp)
  exact this

theorem nativeRandomBytes_range (eng : Engine σ) (env : Env) (args : List RayaValue) (w : World)
    (h : (rayaValueToI32 (args.getD 0 .null)).val ≤ 0 ∨
      (rayaValueToI32 (args.getD 0 .null)).val > 1024 * 1024) :
    nativeRandomBytes eng env args 1 w =
      (.value (rayaErrorNew (lit "Length must be between 1 and 1048576")), w.note (.read 0)) := by
  simp only [nativeRandomBytes, checkArgc_self, pure_bind, arg_bind]
  split
  · rfl
  · exact absurd h ‹_›

theorem nativeRandomBytes_throws (eng : Engine σ) (env : Env) (args : List RayaValue) (w : World)
    (h : ¬((rayaValueToI32 (args.getD 0 .null)).val ≤ 0 ∨
      (rayaValueToI32 (args.getD 0 .null)).val > 1024 * 1024)) {what : Bytes}
    (hrd : env.rd = .throws what) :
    nativeRandomBytes eng env args 1 w = (.escapes what, w.note (.read 0)) := by
  simp only [nativeRandomBytes, checkArgc_self, pure_bind, arg_bind, if_neg h, hrd]
  rfl

theorem nativeRandomBytes_ok (eng : Engine σ) (env : Env) (args : List RayaValue) (w : World)
    (h : ¬((rayaValueToI32 (args.getD 0 .null)).val ≤ 0 ∨
      (rayaValueToI32 (args.getD 0 .null)).val > 1024 * 1024)) {rd : UInt32}
    (hrd : env.rd = .answers rd) :
    nativeRandomBytes eng env args 1 w =
      (.value (.array w.next), { w with
        log := w.log ++ arrayLog w.next (fill eng rd (rayaValueToI32 (args.getD 0 .null)).val.toNat)
        next := w.next + 1 }) := by
  simp only [nativeRandomBytes, checkArgc_self, pure_bind, arg_bind, if_neg h, hrd]
  simp only [rayaArrayNew_bind]
  simp only [bind_run, forRange_rayaArraySet, pure_run, arrayLog, fill_length]
  simp [World.note, rayaValueFromI32, List.range_eq_range']

theorem nativeRandomBytes_reads (eng : Engine σ) (env : Env) (args : List RayaValue) :
    ReadsBelow 1 (nativeRandomBytes eng env args 1) :=
  .checkArgc _ _ <| .bind (.arg args (by decide)) fun _ => by
    dsimp only
    split
    · exact .pure _
    · split
      · exact .pure _
      · exact .bind (.pure _) fun _ => .bind (.rayaArrayNew _) fun _ =>
          .bind (.forRange_rayaArraySet _ _ _ _) fun _ => .pure _

/-- With one argument of any type, `randomBytes` fails exactly when the `int32_t` `n` it reads is
outside `[1, 1048576]`. Otherwise, when `std::random_device` throws, the exception leaves the
function after the one argument read; when it answers, the function returns the array
`raya_array_new(ctx, n)` made, after setting each index below `n` once, in order, to an `i32` in
`[0, 255]`. -/
theorem randomBytes_spec (eng : Engine σ) (env : Env) (v : RayaValue) (w : World) :
    ((nativeRandomBytes eng env [v] 1 w).1.isError ↔
      (rayaValueToI32 v).val ≤ 0 ∨ 1048576 < (rayaValueToI32 v).val) ∧
    (¬((rayaValueToI32 v).val ≤ 0 ∨ 1048576 < (rayaValueToI32 v).val) →
      (∀ what, env.rd = .throws what →
        nativeRandomBytes eng env [v] 1 w = (.escapes what, w.note (.read 0))) ∧
      (∀ rd, env.rd = .answers rd →
        (nativeRandomBytes eng env [v] 1 w).1 = .value (.array w.next) ∧
        ∃ vals : Nat → I32, (∀ i, 0 ≤ (vals i).val ∧ (vals i).val ≤ 255) ∧
          (nativeRandomBytes eng env [v] 1 w).2.log = w.log ++
            .read 0 :: .arrayNew w.next (rayaValueToI32 v).val.toNat ::
              (List.range (rayaValueToI32 v).val.toNat).map
                fun i => .arraySet (.array w.next) i (.i32 (vals i)))) := by
  by_cases hr : (rayaValueToI32 v).val ≤ 0 ∨ 1048576 < (rayaValueToI32 v).val
  · rw [nativeRandomBytes_range eng env [v] w hr]
    exact ⟨by simp [hr, Outcome.isError], fun h => absurd hr h⟩
  · refine ⟨?_, fun _ => ⟨fun what hrd => nativeRandomBytes_throws eng env [v] w hr hrd,
      fun rd hrd => ?_⟩⟩
    · cases hrd : env.rd with
      | throws what => simp [nativeRandomBytes_throws eng env [v] w hr hrd, hr, Outcome.isError]
      | answers rd =>
          simp [nativeRandomBytes_ok eng env [v] w hr hrd, hr, Outcome.isError, RayaValue.isError]
    · rw [nativeRandomBytes_ok eng env [v] w hr hrd]
      let bytes := fill eng rd (rayaValueToI32 v).val.toNat
      exact ⟨rfl, fun i => I32.ofUInt8 (bytes.getD i 0), fun i => I32.ofUInt8_val_mem _,
        by simp [arrayLog, fill_length, bytes]⟩

theorem arrayLog_injective {h : Nat} {v v' : List UInt8} (e : arrayLog h v = arrayLog h v') :
    v = v' := by
  simp only [arrayLog, List.cons.injEq, Event.arrayNew.injEq, true_and] at e
  obtain ⟨hl, hs⟩ := e
  refine List.ext_getElem hl fun i hi hi' => ?_
  have := congrArg (fun l => l.getD i (.read 0)) hs
  simp only [List.getD_eq_getElem?_getD, List.getElem?_map, List.getElem?_range hi, ← hl,
    List.getElem?_range hi, Option.map_some', Option.getD_some, Event.arraySet.injEq,
    RayaValue.i32.injEq, true_and] at this
  simpa [List.getElem?_eq_getElem hi, List.getElem?_eq_getElem hi'] using
    I32.ofUInt8_injective this

theorem fill_not_onto (eng : Engine σ) : ∃ v : List UInt8, v.length = 5 ∧ ∀ rd, fill eng rd 5 ≠ v := by
  by_contra hall
  push_neg at hall
  let F : Fin (2 ^ 32) → Fin 5 → Fin 256 := fun k i =>
    ⟨((fill eng (UInt32.ofNat k) 5).getD i 0).toNat, toNat_lt_256 _⟩
  have hF : Function.Surjective F := by
    intro g
    obtain ⟨rd, hrd⟩ := hall (List.ofFn fun i => (g i).val.toUInt8) (by simp)
    have hrd' : UInt32.ofNat rd.toNat = rd :=
      UInt32.toNat.inj (UInt32.toNat_ofNat_of_lt rd.toNat_lt_size)
    refine ⟨⟨rd.toNat, rd.toNat_lt_size⟩, funext fun i => Fin.ext ?_⟩
    simp only [F, hrd', hrd, List.getD_eq_getElem?_getD, List.getElem?_ofFn, List.ofFnNthVal,
      dif_pos i.2, Option.getD_some, Nat.toUInt8]
    exact UInt8.toNat_ofNat_of_lt (g i).2
  have := Fintype.card_le_of_surjective F hF
  rw [Fintype.card_fun, Fintype.card_fin, Fintype.card_fin, Fintype.card_fin] at this
  exact absurd this (by decide)

/-- Whatever the engine, some string of five bytes is never what `randomBytes(5)` returns. -/
theorem randomBytes_unreachable (eng : Engine σ) :
    ∃ v : List UInt8, v.length = 5 ∧ ∀ (env : Env) (w : World),
      nativeRandomBytes eng env [.i32 ⟨5, by decide, by decide⟩] 1 w ≠
        (.value (.array w.next), { w with log := w.log ++ arrayLog w.next v, next := w.next + 1 }) := by
  obtain ⟨v, hv, hne⟩ := fill_not_onto eng
  refine ⟨v, hv, fun env w h => ?_⟩
  cases hrd : env.rd with
  | throws what =>
      rw [nativeRandomBytes_throws eng env [.i32 ⟨5, by decide, by decide⟩] w (by decide) hrd] at h
      cases h
  | answers rd =>
      rw [nativeRandomBytes_ok eng env [.i32 ⟨5, by decide, by decide⟩] w (by decide) hrd] at h
      exact hne rd (arrayLog_injective (List.append_cancel_left (congrArg World.log (Prod.mk.inj h).2)))

end RayaFfi.Crypto.RandomBytes
