import RayaFfi.Contract

namespace RayaFfi.Arrays

open Value Os Abi Crypto.ConstantTimeEqual Crypto.Hash Crypto.RandomBytes Fs.Native Contract

variable {σ : Type}

abbrev ArrayState := Nat → Option (Nat × List Nat)

/-- The discipline the natives keep for one marshaling call: `raya_array_new` hands out a
handle not made before, and `raya_array_set` writes an array made before, below its length,
at an index not set yet. `none` is a breach. -/
def accept (as : ArrayState) : Event → Option ArrayState
  | .read _ | .fetch _ _ => some as
  | .arrayNew h n => if as h = none then some (Function.update as h (some (n, []))) else none
  | .arraySet (.array h) i _ =>
      match as h with
      | some (n, set) =>
          if i < n ∧ i ∉ set then some (Function.update as h (some (n, i :: set))) else none
      | none => none
  | .arraySet _ _ _ => none

def acceptAll (as : ArrayState) : List Event → Option ArrayState
  | [] => some as
  | e :: es => (accept as e).bind fun as' => acceptAll as' es

example : acceptAll (fun _ => none) [.arrayNew 0 2, .arraySet (.array 0) 2 .null] = none := rfl

example :
    acceptAll (fun _ => none) [.arrayNew 0 2, .arraySet (.array 0) 1 .null, .arraySet (.array 0) 1 .null] =
      none := rfl

def ArraysSound (w : World) : Prop :=
  ∃ as, acceptAll (fun _ => none) w.log = some as ∧ ∀ h, w.next ≤ h → as h = none

def fillLog (h n : Nat) (f : Nat → RayaValue) : List Event :=
  .arrayNew h n :: (List.range n).map fun i => .arraySet (.array h) i (f i)

def quiet : Event → Bool
  | .read _ | .fetch _ _ => true
  | _ => false

/-- What one native call may do to the world and return: touch no array and return none, or
read arguments, fill one array from the next free handle and return it. -/
def CallShape (w : World) (r : Outcome × World) : Prop :=
  (∃ pre : List Event, (∀ e ∈ pre, quiet e) ∧ r.2.log = w.log ++ pre ∧ r.2.next = w.next ∧
    ∀ h, r.1 ≠ .value (.array h)) ∨
  ∃ (reads : List Nat) (n : Nat) (f : Nat → RayaValue),
    r.2.log = w.log ++ reads.map .read ++ fillLog w.next n f ∧ r.2.next = w.next + 1 ∧
      r.1 = .value (.array w.next)

theorem acceptAll_append (as : ArrayState) (l₁ l₂ : List Event) :
    acceptAll as (l₁ ++ l₂) = (acceptAll as l₁).bind fun as' => acceptAll as' l₂ := by
  induction l₁ generalizing as with
  | nil => rfl
  | cons e es ih =>
      simp only [List.cons_append, acceptAll, Option.bind_assoc]
      cases accept as e <;> simp [ih]

theorem acceptAll_quiet (as : ArrayState) {pre : List Event} (h : ∀ e ∈ pre, quiet e) :
    acceptAll as pre = some as := by
  induction pre with
  | nil => rfl
  | cons e es ih =>
      have hes := ih fun e' he' => h e' (List.mem_cons_of_mem _ he')
      have he := h e (List.mem_cons_self _ _)
      cases e <;> simp_all [acceptAll, accept, quiet]

theorem quiet_reads (reads : List Nat) : ∀ e ∈ reads.map Event.read, quiet e := by
  simp [quiet]

theorem acceptAll_sets {as : ArrayState} {h len : Nat} (f : Nat → RayaValue) (has : as h = some (len, []))
    {k : Nat} (hk : k ≤ len) :
    acceptAll as ((List.range k).map fun i => .arraySet (.array h) i (f i)) =
      some (Function.update as h (some (len, (List.range k).reverse))) := by
  induction k with
  | zero => simp [acceptAll, ← has]
  | succ k ih =>
      rw [List.range_succ, List.map_append, acceptAll_append, ih (by omega)]
      have hk' : k < len ∧ k ∉ (List.range k).reverse := ⟨by omega, by simp⟩
      simp [acceptAll, accept, hk']

theorem acceptAll_fillLog {as : ArrayState} {h : Nat} (has : as h = none) (n : Nat) (f : Nat → RayaValue) :
    acceptAll as (fillLog h n f) = some (Function.update as h (some (n, (List.range n).reverse))) := by
  simp only [fillLog, acceptAll, accept, has, if_true, Option.some_bind]
  rw [acceptAll_sets f (by simp) le_rfl, Function.update_idem]

theorem ArraysSound.step {w : World} {r : Outcome × World} (hw : ArraysSound w)
    (hc : CallShape w r) : ArraysSound r.2 := by
  obtain ⟨as, hl, hfree⟩ := hw
  obtain ⟨pre, hq, hlog, hnext, -⟩ | ⟨reads, n, f, hlog, hnext, -⟩ := hc
  · refine ⟨as, ?_, fun h hh => hfree h (hnext ▸ hh)⟩
    rw [hlog, acceptAll_append, hl, Option.some_bind, acceptAll_quiet _ hq]
  · refine ⟨Function.update as w.next (some (n, (List.range n).reverse)), ?_, fun h hh => ?_⟩
    · rw [hlog, acceptAll_append, acceptAll_append, hl, Option.some_bind,
        acceptAll_quiet _ (quiet_reads reads), Option.some_bind, acceptAll_fillLog (hfree _ le_rfl)]
    · rw [Function.update_noteq (by omega), hfree h (by omega)]

theorem callShape_reads (reads : List Nat) {w : World} {r : Outcome × World}
    (hl : r.2.log = w.log ++ reads.map .read) (hn : r.2.next = w.next)
    (ho : ∀ h, r.1 ≠ .value (.array h)) : CallShape w r :=
  .inl ⟨_, quiet_reads reads, hl, hn, ho⟩

theorem callShape_registered (lib : Digests) (eng : Engine σ) {e : Export}
    (he : e ∈ (cryptoModuleInit lib eng).exports ++ fsModuleInit.exports) (env : Env)
    (args : List RayaValue) (argc : Nat) (w : World) : CallShape w (e.fn env args argc w) := by
  by_cases hc : argc = e.arity
  · rw [cryptoModuleInit_exports, fsModuleInit_exports] at he
    simp only [List.cons_append, List.nil_append, List.mem_cons, List.not_mem_nil,
      or_false] at he
    rcases he with rfl | rfl | rfl | rfl | rfl | rfl | rfl | rfl | rfl <;> subst hc <;>
      dsimp only
    · rw [nativeHash_two]
      split
      · exact callShape_reads [0] rfl rfl (by simp [rayaErrorNew])
      · exact callShape_reads [0, 1] (by simp) rfl (by simp [rayaErrorNew])
      · exact callShape_reads [0, 1] (by simp) rfl fun h => by
          simp only [hashOf]
          split_ifs <;> simp [rayaValueFromString, rayaErrorNew]
    · by_cases hr : (rayaValueToI32 (args.getD 0 .null)).val ≤ 0 ∨
        (rayaValueToI32 (args.getD 0 .null)).val > 1024 * 1024
      · rw [nativeRandomBytes_range eng env args w hr]
        exact callShape_reads [0] rfl rfl (by simp [rayaErrorNew])
      · cases hrd : env.rd with
        | throws what =>
            rw [nativeRandomBytes_throws eng env args w hr hrd]
            exact callShape_reads [0] rfl rfl nofun
        | answers rd =>
            rw [nativeRandomBytes_ok eng env args w hr hrd]
            let v := fill eng rd (rayaValueToI32 (args.getD 0 .null)).val.toNat
            exact .inr ⟨[0], v.length, fun i => .i32 (I32.ofUInt8 (v.getD i 0)),
              by simp [arrayLog, fillLog, v], rfl, rfl⟩
    · rw [nativeConstantTimeEqual_two]
      split
      · rename_i a b _ _
        refine .inl ⟨.read 0 :: .read 1 :: (fetches a b).map Access.event, fun e he => ?_,
          by simp [World.noteAll], rfl, by simp [rayaValueFromBool]⟩
        simp only [List.cons_append, List.nil_append, List.mem_cons, List.mem_map] at he
        rcases he with rfl | rfl | ⟨x, -, rfl⟩
        · rfl
        · rfl
        · cases x <;> rfl
      · exact callShape_reads [0, 1] (by simp) rfl (by simp [rayaErrorNew])
    · rw [nativeReadFile_one]
      exact callShape_reads [0] rfl rfl fun h => by
        dsimp only
        split <;> simp [error, rayaErrorNew, toRaya, rayaValueFromString]
    · rw [nativeWriteFile_two]
      exact callShape_reads [0, 1] (by simp) rfl fun h => by
        dsimp only
        split <;> simp [error, rayaErrorNew, rayaValueNull]
    · rw [nativeExists_one]
      exact callShape_reads [0] rfl rfl fun h => by
        split <;> simp [boolToRaya, rayaValueFromBool]
    · rw [nativeMkdir_one]
      exact callShape_reads [0] rfl rfl fun h => by
        dsimp only
        split <;> simp [error, rayaErrorNew, rayaValueNull]
    · rw [nativeRemove_one]
      exact callShape_reads [0] rfl rfl fun h => by
        dsimp only
        split <;> simp [error, rayaErrorNew, boolToRaya, rayaValueFromBool]
    · rw [nativeListDir_one]
      cases Fs.Ops.listDir env.listing (fromRaya (args.getD 0 .null)) w.fs with
      | inl entries =>
          exact .inr ⟨[0], entries.length, fun i => toRaya (entries.getD i []), by simp [fillLog],
            rfl, rfl⟩
      | inr message => exact callShape_reads [0] rfl rfl (by simp [error, rayaErrorNew])
  · obtain ⟨_, hm⟩ := wrong_argc lib eng he env args hc w
    rw [hm]
    exact callShape_reads [] (by simp) rfl (by simp)

/-- An array a registered function returns is the one it made in that call, from the next
free handle, and the call set it at every index below its length. -/
theorem returned_array_filled (lib : Digests) (eng : Engine σ) {e : Export}
    (he : e ∈ (cryptoModuleInit lib eng).exports ++ fsModuleInit.exports) (env : Env)
    (args : List RayaValue) (argc : Nat) (w : World) {h : Nat}
    (hr : (e.fn env args argc w).1 = .value (.array h)) :
    h = w.next ∧ ∃ (reads : List Nat) (n : Nat) (f : Nat → RayaValue),
      (e.fn env args argc w).2.log = w.log ++ reads.map .read ++ fillLog h n f := by
  obtain ⟨-, -, -, -, ho⟩ | ⟨reads, n, f, hlog, -, hout⟩ :=
    callShape_registered lib eng he env args argc w
  · exact absurd hr (ho h)
  · obtain rfl : w.next = h := by simpa [hout] using hr
    exact ⟨rfl, reads, n, f, hlog⟩

theorem returned_array_filled_randomBytes :
    (nativeRandomBytes Engine.zero Env.serving [.i32 ⟨3, by decide, by decide⟩] 1 ⟨Fs.tmp, [], 0⟩).1 =
      .value (.array 0) ∧
    0 = (⟨Fs.tmp, [], 0⟩ : World).next ∧
    ∃ (reads : List Nat) (n : Nat) (f : Nat → RayaValue),
      (nativeRandomBytes Engine.zero Env.serving [.i32 ⟨3, by decide, by decide⟩] 1 ⟨Fs.tmp, [], 0⟩).2.log =
        [] ++ reads.map .read ++ fillLog 0 n f := by
  have hr : (nativeRandomBytes Engine.zero Env.serving [.i32 ⟨3, by decide, by decide⟩] 1
      ⟨Fs.tmp, [], 0⟩).1 = .value (.array 0) := rfl
  exact ⟨hr, returned_array_filled Digests.zero Engine.zero
    (List.mem_append_left _ (List.mem_cons_of_mem _ (List.mem_cons_self _ _))) _ _ 1 _ hr⟩

/-- Over any sequence of calls of the functions the two modules register, from a world with
an empty log, every `raya_array_set` writes an array an earlier `raya_array_new` made, at an
index below its length and set only once, and no handle is made twice. -/
theorem runCalls_arraysSound (lib : Digests) (eng : Engine σ)
    (calls : List (Export × Env × List RayaValue × Nat))
    (hc : ∀ c ∈ calls, c.1 ∈ (cryptoModuleInit lib eng).exports ++ fsModuleInit.exports)
    (fs : Fs) : ArraysSound (runCalls calls ⟨fs, [], 0⟩) := by
  suffices ∀ w, ArraysSound w → ArraysSound (runCalls calls w) from
    this _ ⟨fun _ => none, rfl, fun _ _ => rfl⟩
  induction calls with
  | nil => exact fun _ hw => hw
  | cons c calls ih =>
      obtain ⟨e, env, args, argc⟩ := c
      intro w hw
      exact ih (fun c hc' => hc c (List.mem_cons_of_mem _ hc')) _
        (hw.step (callShape_registered lib eng (hc _ (List.mem_cons_self _ _)) env args argc w))

theorem runCalls_arraysSound_randomBytes_listDir :
    ArraysSound (runCalls
      [(⟨lit "randomBytes", nativeRandomBytes Engine.zero, 1⟩, Env.serving,
          [.i32 ⟨3, by decide, by decide⟩], 1),
        (⟨lit "mkdir", nativeMkdir, 1⟩, Env.serving, [.string ⟨lit "/tmp/a", by decide⟩], 1),
        (⟨lit "listDir", nativeListDir, 1⟩, Env.serving, [.string ⟨lit "/tmp", by decide⟩], 1)]
      ⟨Fs.tmp, [], 0⟩) :=
  runCalls_arraysSound Digests.zero Engine.zero _
    (fun c hc => by
      simp only [List.mem_cons, List.not_mem_nil, or_false] at hc
      rw [cryptoModuleInit_exports, fsModuleInit_exports]
      rcases hc with rfl | rfl | rfl <;> simp)
    _

end RayaFfi.Arrays
