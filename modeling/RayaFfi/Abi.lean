import RayaFfi.Os

namespace RayaFfi.Abi

open Value Os

variable {σ α : Type}

/-- A call a native function makes across the marshaling layer, or a byte it fetches from the
string of an argument (`fetch slot i` is byte `i` of the string of `args[slot]`), traced for the
comparison that must not depend on string contents. -/
inductive Event
  | read (slot : Nat)
  | arrayNew (handle len : Nat)
  | arraySet (array : RayaValue) (index : Nat) (value : RayaValue)
  | fetch (slot i : Nat)
  deriving DecidableEq

/-- What a native call can change: the file system, the marshaling calls made so far
(oldest first) and the next fresh handle. -/
structure World where
  fs : Fs
  log : List Event
  next : Nat

def World.note (w : World) (e : Event) : World := { w with log := w.log ++ [e] }

@[simp] theorem World.note_fs (w : World) (e : Event) : (w.note e).fs = w.fs := rfl

@[simp] theorem World.note_log (w : World) (e : Event) : (w.note e).log = w.log ++ [e] := rfl

@[simp] theorem World.note_next (w : World) (e : Event) : (w.note e).next = w.next := rfl

def World.noteAll (w : World) (es : List Event) : World := { w with log := w.log ++ es }

/-- A native function returns a value handle, or lets a C++ exception escape, which the
C signature of `RayaNativeFunction` cannot carry. -/
inductive Outcome
  | value (v : RayaValue)
  | escapes (what : Bytes)
  deriving DecidableEq

def Outcome.isError : Outcome → Bool
  | .value v => v.isError
  | .escapes _ => false

abbrev NativeM := StateM World

abbrev Native := Env → List RayaValue → Nat → NativeM Outcome

def checkArgc (arity : Nat) (message : Bytes) (argc : Nat) (body : NativeM Outcome) :
    NativeM Outcome :=
  if argc ≠ arity then pure (.value (rayaErrorNew message)) else body

theorem checkArgc_ne {arity argc : Nat} (message : Bytes) (body : NativeM Outcome)
    (h : argc ≠ arity) (w : World) :
    checkArgc arity message argc body w = (.value (.error (cstrOf message)), w) := by
  rw [checkArgc, if_pos h]
  rfl

@[simp] theorem checkArgc_self (arity : Nat) (message : Bytes) (body : NativeM Outcome) :
    checkArgc arity message arity body = body :=
  if_neg (not_not.2 rfl)

/-- `args[i]`. The read is logged; a slot past the array yields null in the model. -/
def arg (args : List RayaValue) (i : Nat) : NativeM RayaValue :=
  fun w => (args.getD i .null, w.note (.read i))

def rayaArrayNew (len : Nat) : NativeM RayaValue :=
  fun w => (.array w.next, { w.note (.arrayNew w.next len) with next := w.next + 1 })

def rayaArraySet (array : RayaValue) (index : Nat) (value : RayaValue) : NativeM Unit :=
  fun w => ((), w.note (.arraySet array index value))

def noteAll (es : List Event) : NativeM Unit := fun w => ((), w.noteAll es)

def onFs (f : Fs → α × Fs) : NativeM α :=
  fun w => ((f w.fs).1, { w with fs := (f w.fs).2 })

@[simp] theorem pure_run (a : α) (s : σ) : (pure a : StateM σ α) s = (a, s) := rfl

@[simp] theorem map_run {β : Type} (f : α → β) (m : StateM σ α) (s : σ) :
    (f <$> m) s = (f (m s).1, (m s).2) := rfl

theorem bind_run {β : Type} (m : StateM σ α) (f : α → StateM σ β) (s : σ) :
    (m >>= f) s = f (m s).1 (m s).2 := rfl

@[simp] theorem arg_bind {β : Type} (args : List RayaValue) (i : Nat)
    (f : RayaValue → NativeM β) (w : World) :
    (arg args i >>= f) w = f (args.getD i .null) (w.note (.read i)) := rfl

@[simp] theorem rayaArrayNew_bind {β : Type} (len : Nat) (f : RayaValue → NativeM β) (w : World) :
    (rayaArrayNew len >>= f) w =
      f (.array w.next) { w.note (.arrayNew w.next len) with next := w.next + 1 } := rfl

@[simp] theorem noteAll_bind {β : Type} (es : List Event) (f : Unit → NativeM β) (w : World) :
    (noteAll es >>= f) w = f () (w.noteAll es) := rfl

@[simp] theorem onFs_bind {β : Type} (g : Fs → α × Fs) (f : α → NativeM β) (w : World) :
    (onFs g >>= f) w = f (g w.fs).1 { w with fs := (g w.fs).2 } := rfl

def forRange (body : Nat → StateM σ Unit) (start : Nat) : Nat → StateM σ Unit
  | 0 => pure ()
  | n + 1 => do body start; forRange body (start + 1) n

theorem forRange_inv (body : Nat → StateM σ Unit) (P : Nat → σ → Prop)
    (step : ∀ i s, P i s → P (i + 1) (body i s).2) (start n : Nat) (s : σ) (h : P start s) :
    P (start + n) (forRange body start n s).2 := by
  induction n generalizing start s with
  | zero => exact h
  | succ n ih =>
      have := ih (start + 1) _ (step start s h)
      rwa [Nat.add_right_comm, Nat.add_assoc] at this

theorem forRange_note (e : Nat → Event) (start n : Nat) (w : World) :
    forRange (fun i w => ((), w.note (e i))) start n w =
      ((), { w with log := w.log ++ (List.range' start n).map e }) := by
  induction n generalizing start w with
  | zero => simp [forRange]
  | succ n ih =>
      simp only [forRange, bind_run]
      rw [ih]
      simp [World.note, List.range'_succ]

theorem forRange_rayaArraySet (array : RayaValue) (f : Nat → RayaValue) (start n : Nat) (w : World) :
    forRange (fun i => rayaArraySet array i (f i)) start n w =
      ((), { w with log := w.log ++ (List.range' start n).map fun i => .arraySet array i (f i) }) :=
  forRange_note _ start n w

def ReadsBelow (k : Nat) (m : NativeM α) : Prop :=
  ∀ w, ∃ new, (m w).2.log = w.log ++ new ∧ ∀ i, Event.read i ∈ new → i < k

namespace ReadsBelow

variable {k : Nat}

theorem mono {k' : Nat} {m : NativeM α} (h : ReadsBelow k m) (hk : k ≤ k') : ReadsBelow k' m :=
  fun w => (h w).imp fun _ ⟨hl, hr⟩ => ⟨hl, fun i hi => Nat.lt_of_lt_of_le (hr i hi) hk⟩

theorem pure (a : α) : ReadsBelow k (pure a : NativeM α) := fun _ => ⟨[], by simp, by simp⟩

theorem bind {β : Type} {m : NativeM α} {f : α → NativeM β} (hm : ReadsBelow k m)
    (hf : ∀ a, ReadsBelow k (f a)) : ReadsBelow k (m >>= f) := fun w => by
  obtain ⟨new, hl, hr⟩ := hm w
  obtain ⟨new', hl', hr'⟩ := hf (m w).1 (m w).2
  refine ⟨new ++ new', by rw [bind_run, hl', hl, List.append_assoc], fun i hi => ?_⟩
  rcases List.mem_append.1 hi with hi | hi
  · exact hr i hi
  · exact hr' i hi

theorem arg {i : Nat} (args : List RayaValue) (h : i < k) : ReadsBelow k (arg args i) :=
  fun _ => ⟨[.read i], rfl, fun j hj => by
    simp only [List.mem_singleton, Event.read.injEq] at hj
    exact hj ▸ h⟩

theorem noteAll {es : List Event} (h : ∀ i, Event.read i ∉ es) : ReadsBelow k (noteAll es) :=
  fun _ => ⟨es, rfl, fun i hi => absurd hi (h i)⟩

theorem onFs (f : Fs → α × Fs) : ReadsBelow k (onFs f) := fun _ => ⟨[], by simp [Abi.onFs], by simp⟩

theorem rayaArrayNew (len : Nat) : ReadsBelow k (rayaArrayNew len) :=
  fun _ => ⟨_, rfl, by simp⟩

theorem forRange_rayaArraySet (array : RayaValue) (f : Nat → RayaValue) (start n : Nat) :
    ReadsBelow k (forRange (fun i => rayaArraySet array i (f i)) start n) :=
  fun w => ⟨_, by rw [Abi.forRange_rayaArraySet], by simp⟩

theorem checkArgc {arity : Nat} (message : Bytes) (body : NativeM Outcome)
    (h : ReadsBelow k body) : ReadsBelow k (checkArgc arity message arity body) := by
  rwa [checkArgc_self]

end ReadsBelow

structure Export where
  name : Bytes
  fn : Native
  arity : Nat

structure RayaModuleBuilder where
  name : Bytes
  version : Bytes
  exports : List Export

structure RayaModule where
  name : Bytes
  version : Bytes
  exports : List Export

def rayaModuleBuilderNew (name version : Bytes) : RayaModuleBuilder := ⟨name, version, []⟩

/-- Modelled from the spec: adding a name already present replaces its entry in place,
so the last registration wins. -/
def rayaModuleAddFunction (b : RayaModuleBuilder) (name : Bytes) (fn : Native) (arity : Nat) :
    RayaModuleBuilder :=
  if b.exports.any (·.name == name) then
    { b with exports := b.exports.map fun e => if e.name = name then ⟨name, fn, arity⟩ else e }
  else { b with exports := b.exports ++ [⟨name, fn, arity⟩] }

def rayaModuleBuilderFinish (b : RayaModuleBuilder) : RayaModule := ⟨b.name, b.version, b.exports⟩

end RayaFfi.Abi
