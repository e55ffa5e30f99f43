import RayaFfi.Abi
import RayaFfi.Fs.Ops

namespace RayaFfi.Fs.Native

open Value Os Abi

/-- `TypeConverter<std::string>::from_raya`: a value that is not a string reads as `""`. -/
def fromRaya (v : RayaValue) : Bytes :=
  match rayaValueToString v with
  | some s => s.bytes
  | none => []

@[simp] theorem fromRaya_string (s : CStr) : fromRaya (.string s) = s.bytes := rfl

def toRaya (s : Bytes) : RayaValue := rayaValueFromString s

def boolToRaya (b : Bool) : RayaValue := rayaValueFromBool b

def error (message : Bytes) : RayaValue := rayaErrorNew message

def looksLikeError (value : Bytes) : Bool :=
  (lit "Error").isPrefixOf value || (lit "Failed").isPrefixOf value

/-- The one-argument wrappers: check `argc`, read `args[0]` through `from_raya`, act on the
path. `RAYA_FUNCTION` as defined drops its body argument; the wrappers are modelled on the
bodies written there. -/
def pathFunction (message : Bytes) (body : Env → Bytes → NativeM Outcome) : Native :=
  fun env args argc => checkArgc 1 message argc do body env (fromRaya (← arg args 0))

/-- `readFile(path: string): string`. Both alternatives of `Result<std::string>` are
`std::string`, so `std::visit` takes the same branch for each. -/
def nativeReadFile : Native :=
  pathFunction (lit "readFile() requires 1 argument") fun env path => do
    let result ← onFs fun fs => (Ops.readFile env.read path fs, fs)
    let value := match result with
      | .inl value => value
      | .inr value => value
    if looksLikeError value then
      return .value (error value)
    return .value (toRaya value)

def nativeWriteFile : Native := fun env args argc =>
  checkArgc 2 (lit "writeFile() requires 2 arguments") argc do
  let path := fromRaya (← arg args 0)
  let content := fromRaya (← arg args 1)
  match ← onFs (Ops.writeFile env.write path content) with
  | .inl _ => return .value rayaValueNull
  | .inr message => return .value (error message)

def nativeExists : Native :=
  pathFunction (lit "exists() requires 1 argument") fun env path => do
    match ← onFs fun fs => (Ops.pathExists env.probe path fs, fs) with
    | .ok result => return .value (boolToRaya result)
    | .error what => return .escapes what

def nativeMkdir : Native :=
  pathFunction (lit "mkdir() requires 1 argument") fun env path => do
    match ← onFs (Ops.mkdir env.mkdir path) with
    | .inl _ => return .value rayaValueNull
    | .inr message => return .value (error message)

def nativeRemove : Native :=
  pathFunction (lit "remove() requires 1 argument") fun env path => do
    match ← onFs (Ops.remove env.remove path) with
    | .inl removed => return .value (boolToRaya removed)
    | .inr message => return .value (error message)

def nativeListDir : Native :=
  pathFunction (lit "listDir() requires 1 argument") fun env path => do
    match ← onFs fun fs => (Ops.listDir env.listing path fs, fs) with
    | .inl entries =>
        let array ← rayaArrayNew entries.length
        forRange (fun i => rayaArraySet array i (toRaya (entries.getD i []))) 0 entries.length
        return .value array
    | .inr message => return .value (error message)

theorem pathFunction_one (message : Bytes) (body : Env → Bytes → NativeM Outcome) (env : Env)
    (args : List RayaValue) (w : World) :
    pathFunction message body env args 1 w =
      body env (fromRaya (args.getD 0 .null)) (w.note (.read 0)) := by
  simp [pathFunction]

theorem nativeWriteFile_two (env : Env) (args : List RayaValue) (w : World) :
    nativeWriteFile env args 2 w =
      let r := Ops.writeFile env.write (fromRaya (args.getD 0 .null)) (fromRaya (args.getD 1 .null))
        w.fs
      (.value (match r.1 with
        | .inl _ => rayaValueNull
        | .inr message => error message),
        { (w.note (.read 0)).note (.read 1) with fs := r.2 }) := by
  simp only [nativeWriteFile, checkArgc_self, arg_bind, onFs_bind]
  split <;> simp_all

theorem nativeReadFile_one (env : Env) (args : List RayaValue) (w : World) :
    nativeReadFile env args 1 w =
      let value := match Ops.readFile env.read (fromRaya (args.getD 0 .null)) w.fs with
        | .inl value => value
        | .inr value => value
      (.value (if looksLikeError value then error value else toRaya value), w.note (.read 0)) := by
  simp only [nativeReadFile, pathFunction_one, onFs_bind, World.note_fs]
  split <;> simp_all [World.note]

theorem nativeExists_one (env : Env) (args : List RayaValue) (w : World) :
    nativeExists env args 1 w =
      (match Ops.pathExists env.probe (fromRaya (args.getD 0 .null)) w.fs with
        | .ok result => .value (boolToRaya result)
        | .error what => .escapes what, w.note (.read 0)) := by
  simp only [nativeExists, pathFunction_one, onFs_bind]
  split <;> simp_all [World.note]

theorem nativeMkdir_one (env : Env) (args : List RayaValue) (w : World) :
    nativeMkdir env args 1 w =
      let r := Ops.mkdir env.mkdir (fromRaya (args.getD 0 .null)) w.fs
      (.value (match r.1 with
        | .inl _ => rayaValueNull
        | .inr message => error message), { w.note (.read 0) with fs := r.2 }) := by
  simp only [nativeMkdir, pathFunction_one, onFs_bind]
  split <;> simp_all

theorem nativeRemove_one (env : Env) (args : List RayaValue) (w : World) :
    nativeRemove env args 1 w =
      let r := Ops.remove env.remove (fromRaya (args.getD 0 .null)) w.fs
      (.value (match r.1 with
        | .inl removed => boolToRaya removed
        | .inr message => error message), { w.note (.read 0) with fs := r.2 }) := by
  simp only [nativeRemove, pathFunction_one, onFs_bind]
  split <;> simp_all

theorem nativeListDir_one (env : Env) (args : List RayaValue) (w : World) :
    nativeListDir env args 1 w =
      match Ops.listDir env.listing (fromRaya (args.getD 0 .null)) w.fs with
      | .inl entries => (.value (.array w.next), { w with
          log := w.log ++ .read 0 :: .arrayNew w.next entries.length ::
            (List.range entries.length).map fun i => .arraySet (.array w.next) i (toRaya (entries.getD i []))
          next := w.next + 1 })
      | .inr message => (.value (error message), w.note (.read 0)) := by
  simp only [nativeListDir, pathFunction_one, onFs_bind, World.note_fs]
  cases Ops.listDir env.listing (fromRaya (args.getD 0 .null)) w.fs with
  | inl entries =>
      simp only [rayaArrayNew_bind]
      simp only [bind_run, forRange_rayaArraySet, pure_run]
      simp [World.note, List.range_eq_range']
  | inr message => rfl

theorem pathFunction_ne (message : Bytes) (body : Env → Bytes → NativeM Outcome) (env : Env)
    (args : List RayaValue) {argc : Nat} (h : argc ≠ 1) (w : World) :
    pathFunction message body env args argc w = (.value (.error (cstrOf message)), w) :=
  checkArgc_ne _ _ h w

theorem nativeReadFile_fs (env : Env) (args : List RayaValue) (argc : Nat) (w : World) :
    (nativeReadFile env args argc w).2.fs = w.fs := by
  by_cases h : argc = 1
  · subst h
    rw [nativeReadFile_one]
    rfl
  · rw [nativeReadFile, pathFunction_ne _ _ _ _ h]

theorem nativeExists_fs (env : Env) (args : List RayaValue) (argc : Nat) (w : World) :
    (nativeExists env args argc w).2.fs = w.fs := by
  by_cases h : argc = 1
  · subst h
    rw [nativeExists_one]
    rfl
  · rw [nativeExists, pathFunction_ne _ _ _ _ h]

theorem nativeListDir_fs (env : Env) (args : List RayaValue) (argc : Nat) (w : World) :
    (nativeListDir env args argc w).2.fs = w.fs := by
  by_cases h : argc = 1
  · subst h
    rw [nativeListDir_one]
    split <;> rfl
  · rw [nativeListDir, pathFunction_ne _ _ _ _ h]

theorem nativeWriteFile_fs (env : Env) (args : List RayaValue) (argc : Nat) (w : World) :
    (nativeWriteFile env args argc w).2.fs = if argc = 2 then
      (Ops.writeFile env.write (fromRaya (args.getD 0 .null)) (fromRaya (args.getD 1 .null)) w.fs).2
      else w.fs := by
  split_ifs with h
  · subst h
    rw [nativeWriteFile_two]
  · rw [nativeWriteFile, checkArgc_ne _ _ h]

theorem nativeMkdir_fs (env : Env) (args : List RayaValue) (argc : Nat) (w : World) :
    (nativeMkdir env args argc w).2.fs = if argc = 1 then
      (Ops.mkdir env.mkdir (fromRaya (args.getD 0 .null)) w.fs).2 else w.fs := by
  split_ifs with h
  · subst h
    rw [nativeMkdir_one]
  · rw [nativeMkdir, pathFunction_ne _ _ _ _ h]

theorem nativeRemove_fs (env : Env) (args : List RayaValue) (argc : Nat) (w : World) :
    (nativeRemove env args argc w).2.fs = if argc = 1 then
      (Ops.remove env.remove (fromRaya (args.getD 0 .null)) w.fs).2 else w.fs := by
  split_ifs with h
  · subst h
    rw [nativeRemove_one]
  · rw [nativeRemove, pathFunction_ne _ _ _ _ h]

theorem pathFunction_reads (message : Bytes) (body : Env → Bytes → NativeM Outcome)
    (h : ∀ env path, ReadsBelow 0 (body env path)) (env : Env) (args : List RayaValue) :
    ReadsBelow 1 (pathFunction message body env args 1) :=
  .checkArgc _ _ <| .bind (.arg args (by decide)) fun _ => (h env _).mono (Nat.zero_le 1)

theorem nativeReadFile_reads (env : Env) (args : List RayaValue) :
    ReadsBelow 1 (nativeReadFile env args 1) :=
  pathFunction_reads _ _ (fun _ _ => .bind (.onFs _) fun _ => by
    dsimp only
    split <;> exact .pure _) env args

theorem nativeExists_reads (env : Env) (args : List RayaValue) :
    ReadsBelow 1 (nativeExists env args 1) :=
  pathFunction_reads _ _ (fun _ _ => .bind (.onFs _) fun r => by
    cases r <;> exact .pure _) env args

theorem nativeMkdir_reads (env : Env) (args : List RayaValue) :
    ReadsBelow 1 (nativeMkdir env args 1) :=
  pathFunction_reads _ _ (fun _ _ => .bind (.onFs _) fun r => by
    cases r <;> exact .pure _) env args

theorem nativeRemove_reads (env : Env) (args : List RayaValue) :
    ReadsBelow 1 (nativeRemove env args 1) :=
  pathFunction_reads _ _ (fun _ _ => .bind (.onFs _) fun r => by
    cases r <;> exact .pure _) env args

theorem nativeListDir_reads (env : Env) (args : List RayaValue) :
    ReadsBelow 1 (nativeListDir env args 1) := by
  refine pathFunction_reads _ _ (fun env _ => .bind (.onFs _) fun r => ?_) env args
  cases r with
  | inl entries =>
      exact .bind (.rayaArrayNew _) fun _ => .bind (.forRange_rayaArraySet _ _ _ _) fun _ => .pure _
  | inr message => exact .pure _

theorem nativeWriteFile_reads (env : Env) (args : List RayaValue) :
    ReadsBelow 2 (nativeWriteFile env args 2) :=
  .checkArgc _ _ <| .bind (.arg args (by decide)) fun _ => .bind (.arg args (by decide)) fun _ =>
    .bind (.onFs _) fun r => by cases r <;> exact .pure _

example :
    (nativeReadFile Env.serving [.string ⟨lit "/dev/null", by decide⟩] 1
      (nativeWriteFile Env.serving [.string ⟨lit "/dev/null", by decide⟩, .string ⟨lit "hi", by decide⟩] 2
        ⟨(Fs.tmp.set [lit "dev"] (some .dir)).set [lit "null", lit "dev"] (some .device), [], 0⟩).2).1 =
      .value (toRaya []) := by decide

theorem looksLikeError_of_readFile_inr {fate : ReadFate} {path message : Bytes} {fs : Fs}
    (h : Ops.readFile fate path fs = .inr message) : looksLikeError message = true := by
  rcases Ops.readFile_inr h with h | h <;>
    simp [looksLikeError, List.isPrefixOf_iff_prefix.2 h]

theorem readFile_misclassifies :
    Ops.readFile .clean (lit "/tmp/log.txt")
        (Fs.tmp.set [lit "log.txt", lit "tmp"] (some (.file (lit "Error 42")))) = .inl (lit "Error 42") ∧
    (nativeReadFile Env.serving [.string ⟨lit "/tmp/log.txt", by decide⟩] 1
        ⟨Fs.tmp.set [lit "log.txt", lit "tmp"] (some (.file (lit "Error 42"))), [], 0⟩).1 =
      .value (error (lit "Error 42")) := by
  decide

theorem writeFile_close_failure :
    (nativeWriteFile { Env.serving with write := .closeFails 0 }
        [.string ⟨lit "/tmp/out.txt", by decide⟩, .string ⟨lit "Hello", by decide⟩] 2
        ⟨Fs.tmp, [], 0⟩).1 = .value rayaValueNull ∧
    (nativeWriteFile { Env.serving with write := .closeFails 0 }
        [.string ⟨lit "/tmp/out.txt", by decide⟩, .string ⟨lit "Hello", by decide⟩] 2
        ⟨Fs.tmp, [], 0⟩).2.fs.node [lit "out.txt", lit "tmp"] = some (.file []) := by
  decide

end RayaFfi.Fs.Native
