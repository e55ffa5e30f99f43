import RayaFfi.Crypto.ConstantTimeEqual
import RayaFfi.Crypto.Hash
import RayaFfi.Crypto.RandomBytes
import RayaFfi.Fs.Native

namespace RayaFfi.Contract

open Value Os Abi Crypto.ConstantTimeEqual Crypto.Hash Crypto.RandomBytes Fs.Native

variable {σ : Type}

def cryptoModuleInit (lib : Digests) (eng : Engine σ) : RayaModule :=
  rayaModuleBuilderFinish <|
    rayaModuleAddFunction (rayaModuleAddFunction (rayaModuleAddFunction
      (rayaModuleBuilderNew (lit "crypto") (lit "1.0.0"))
      (lit "hash") (nativeHash lib) 2)
      (lit "randomBytes") (nativeRandomBytes eng) 1)
      (lit "constantTimeEqual") nativeConstantTimeEqual 2

def fsModuleInit : RayaModule :=
  let b := rayaModuleBuilderNew (lit "fs") (lit "1.0.0")
  let b := rayaModuleAddFunction b (lit "readFile") nativeReadFile 1
  let b := rayaModuleAddFunction b (lit "writeFile") nativeWriteFile 2
  let b := rayaModuleAddFunction b (lit "exists") nativeExists 1
  let b := rayaModuleAddFunction b (lit "mkdir") nativeMkdir 1
  let b := rayaModuleAddFunction b (lit "remove") nativeRemove 1
  let b := rayaModuleAddFunction b (lit "listDir") nativeListDir 1
  rayaModuleBuilderFinish b

theorem cryptoModuleInit_exports (lib : Digests) (eng : Engine σ) :
    (cryptoModuleInit lib eng).exports =
      [⟨lit "hash", nativeHash lib, 2⟩, ⟨lit "randomBytes", nativeRandomBytes eng, 1⟩,
        ⟨lit "constantTimeEqual", nativeConstantTimeEqual, 2⟩] := rfl

theorem fsModuleInit_exports :
    fsModuleInit.exports =
      [⟨lit "readFile", nativeReadFile, 1⟩, ⟨lit "writeFile", nativeWriteFile, 2⟩,
        ⟨lit "exists", nativeExists, 1⟩, ⟨lit "mkdir", nativeMkdir, 1⟩,
        ⟨lit "remove", nativeRemove, 1⟩, ⟨lit "listDir", nativeListDir, 1⟩] := rfl

theorem mem_registered {lib : Digests} {eng : Engine σ} {e : Export}
    (he : e ∈ (cryptoModuleInit lib eng).exports ++ fsModuleInit.exports) :
    e = ⟨lit "hash", nativeHash lib, 2⟩ ∨ e = ⟨lit "randomBytes", nativeRandomBytes eng, 1⟩ ∨
      e = ⟨lit "constantTimeEqual", nativeConstantTimeEqual, 2⟩ ∨
      e = ⟨lit "readFile", nativeReadFile, 1⟩ ∨ e = ⟨lit "writeFile", nativeWriteFile, 2⟩ ∨
      e = ⟨lit "exists", nativeExists, 1⟩ ∨ e = ⟨lit "mkdir", nativeMkdir, 1⟩ ∨
      e = ⟨lit "remove", nativeRemove, 1⟩ ∨ e = ⟨lit "listDir", nativeListDir, 1⟩ := by
  rw [cryptoModuleInit_exports, fsModuleInit_exports] at he
  simpa only [List.cons_append, List.nil_append, List.mem_cons, List.not_mem_nil, or_false] using he

theorem wrong_argc (lib : Digests) (eng : Engine σ) {e : Export}
    (he : e ∈ (cryptoModuleInit lib eng).exports ++ fsModuleInit.exports) (env : Env)
    (args : List RayaValue) {argc : Nat} (h : argc ≠ e.arity) (w : World) :
    ∃ message, e.fn env args argc w = (.value (.error message), w) := by
  rcases mem_registered he with rfl | rfl | rfl | rfl | rfl | rfl | rfl | rfl | rfl <;>
    exact ⟨_, checkArgc_ne _ _ h w⟩

/-- Every registered function opens with its own `argc` check against the arity it is
registered with: on another count it returns an error at once, leaving the world as it was;
on its own count it reads only `args[i]` for `i < argc`. -/
theorem argc_checked (lib : Digests) (eng : Engine σ) :
    ∀ e ∈ (cryptoModuleInit lib eng).exports ++ fsModuleInit.exports, ∀ env args argc,
      (argc ≠ e.arity → ∀ w, ∃ message, e.fn env args argc w = (.value (.error message), w)) ∧
      (argc = e.arity → ReadsBelow argc (e.fn env args argc)) := by
  intro e he env args argc
  refine ⟨fun h w => wrong_argc lib eng he env args h w, ?_⟩
  rcases mem_registered he with rfl | rfl | rfl | rfl | rfl | rfl | rfl | rfl | rfl <;> rintro rfl
  exacts [nativeHash_reads lib env args, nativeRandomBytes_reads eng env args,
    nativeConstantTimeEqual_reads env args, nativeReadFile_reads env args,
    nativeWriteFile_reads env args, nativeExists_reads env args, nativeMkdir_reads env args,
    nativeRemove_reads env args, nativeListDir_reads env args]

theorem argc_checked_writeFile_three :
    ∃ message, nativeWriteFile Env.serving [] 3 ⟨Fs.tmp, [], 0⟩ =
      (.value (.error message), ⟨Fs.tmp, [], 0⟩) :=
  (argc_checked Digests.zero Engine.zero ⟨lit "writeFile", nativeWriteFile, 2⟩
    (List.mem_append_right _ (by
      rw [fsModuleInit_exports]
      exact List.mem_cons_of_mem _ (List.mem_cons_self _ _)))
    Env.serving [] 3).1 (by decide) _

theorem writeFile_mistyped_content :
    rayaValueToString (.i32 ⟨42, by decide, by decide⟩) = none ∧
    (nativeWriteFile Env.serving [.string ⟨lit "/tmp/a.txt", by decide⟩, .i32 ⟨42, by decide, by decide⟩] 2
        ⟨Fs.tmp, [], 0⟩).1 = .value rayaValueNull ∧
    (nativeWriteFile Env.serving [.string ⟨lit "/tmp/a.txt", by decide⟩, .i32 ⟨42, by decide, by decide⟩] 2
        ⟨Fs.tmp, [], 0⟩).2.fs.node [lit "a.txt", lit "tmp"] = some (.file []) := by
  decide

theorem crypto_fs (lib : Digests) (eng : Engine σ) {e : Export}
    (he : e ∈ (cryptoModuleInit lib eng).exports) (env : Env) (args : List RayaValue) (argc : Nat)
    (w : World) : (e.fn env args argc w).2.fs = w.fs := by
  by_cases hc : argc = e.arity
  · rw [cryptoModuleInit_exports] at he
    simp only [List.mem_cons, List.not_mem_nil, or_false] at he
    rcases he with rfl | rfl | rfl <;> subst hc <;> dsimp only
    · rw [nativeHash_two]
      split <;> rfl
    · by_cases hr : (rayaValueToI32 (args.getD 0 .null)).val ≤ 0 ∨
        (rayaValueToI32 (args.getD 0 .null)).val > 1024 * 1024
      · rw [nativeRandomBytes_range eng env args w hr]
        rfl
      · cases hrd : env.rd with
        | throws what => rw [nativeRandomBytes_throws eng env args w hr hrd]; rfl
        | answers rd => rw [nativeRandomBytes_ok eng env args w hr hrd]
    · rw [nativeConstantTimeEqual_two]
      split <;> rfl
  · obtain ⟨_, hm⟩ := wrong_argc lib eng (List.mem_append_left _ he) env args hc w
    rw [hm]

/-- What each registered function may do to the file system, whatever the count, the arguments
and the OS answers: the crypto functions, `readFile`, `exists` and `listDir` change nothing;
`writeFile` changes at most one node, which held nothing or a regular file and holds a regular
file afterwards; `mkdir` only makes directories where there was nothing; `remove` takes away at
most one node, and a directory only when nothing is in it. -/
theorem fs_frame (lib : Digests) (eng : Engine σ) (env : Env) (args : List RayaValue) (argc : Nat)
    (w : World) :
    (∀ e ∈ (cryptoModuleInit lib eng).exports, (e.fn env args argc w).2.fs = w.fs) ∧
    (nativeReadFile env args argc w).2.fs = w.fs ∧ (nativeExists env args argc w).2.fs = w.fs ∧
    (nativeListDir env args argc w).2.fs = w.fs ∧
    (∃ l, ∀ q, (nativeWriteFile env args argc w).2.fs.node q ≠ w.fs.node q →
      q = l ∧ (w.fs.node q = none ∨ ∃ c, w.fs.node q = some (.file c)) ∧
        ∃ c, (nativeWriteFile env args argc w).2.fs.node q = some (.file c)) ∧
    w.fs.Grows (nativeMkdir env args argc w).2.fs ∧
    (∃ l, ∀ q, (nativeRemove env args argc w).2.fs.node q ≠ w.fs.node q →
      q = l ∧ (nativeRemove env args argc w).2.fs.node q = none ∧
        (w.fs.node q = some .dir → w.fs.children q = [])) := by
  refine ⟨fun e he => crypto_fs lib eng he env args argc w, nativeReadFile_fs env args argc w,
    nativeExists_fs env args argc w, nativeListDir_fs env args argc w, ?_, ?_, ?_⟩
  · rw [nativeWriteFile_fs]
    split_ifs
    · exact Fs.Ops.writeFile_frame _ _ _ _
    · exact ⟨[], fun q hq => absurd rfl hq⟩
  · rw [nativeMkdir_fs]
    split_ifs
    · exact (Fs.Ops.mkdir_grows _ _ _).1
    · exact .refl _
  · rw [nativeRemove_fs]
    split_ifs
    · exact Fs.Ops.remove_frame _ _ _
    · exact ⟨[], fun q hq => absurd rfl hq⟩

theorem registered_tree (lib : Digests) (eng : Engine σ) {e : Export}
    (he : e ∈ (cryptoModuleInit lib eng).exports ++ fsModuleInit.exports) (env : Env)
    (args : List RayaValue) (argc : Nat) (w : World) (h : w.fs.Tree) :
    (e.fn env args argc w).2.fs.Tree := by
  rcases List.mem_append.1 he with hc | hf
  · rwa [crypto_fs lib eng hc]
  rw [fsModuleInit_exports] at hf
  simp only [List.mem_cons, List.not_mem_nil, or_false] at hf
  rcases hf with rfl | rfl | rfl | rfl | rfl | rfl <;> dsimp only
  · rwa [nativeReadFile_fs]
  · rw [nativeWriteFile_fs]
    split_ifs
    exacts [Fs.Ops.writeFile_tree h _ _ _, h]
  · rwa [nativeExists_fs]
  · rw [nativeMkdir_fs]
    split_ifs
    exacts [(Fs.Ops.mkdir_grows _ _ _).2 h, h]
  · rw [nativeRemove_fs]
    split_ifs
    exacts [Fs.Ops.remove_tree h _ _, h]
  · rwa [nativeListDir_fs]

def runCalls : List (Export × Env × List RayaValue × Nat) → World → World
  | [], w => w
  | (e, env, args, argc) :: calls, w => runCalls calls (e.fn env args argc w).2

/-- Over any sequence of calls of the functions the two modules register, with any OS answers,
a file system in which every node hangs in a directory stays so: no call leaves a file or a
directory whose parent is gone or is no directory. -/
theorem runCalls_tree (lib : Digests) (eng : Engine σ)
    (calls : List (Export × Env × List RayaValue × Nat))
    (hc : ∀ c ∈ calls, c.1 ∈ (cryptoModuleInit lib eng).exports ++ fsModuleInit.exports)
    (w : World) (h : w.fs.Tree) : (runCalls calls w).fs.Tree := by
  induction calls generalizing w with
  | nil => exact h
  | cons c calls ih =>
      obtain ⟨e, env, args, argc⟩ := c
      exact ih (fun c hc' => hc c (List.mem_cons_of_mem _ hc')) _
        (registered_tree lib eng (hc _ (List.mem_cons_self _ _)) env args argc w h)

theorem runCalls_tree_mkdir_remove :
    Fs.tmp.Tree ∧
    (runCalls [(⟨lit "mkdir", nativeMkdir, 1⟩, Env.serving, [.string ⟨lit "/tmp/a/b", by decide⟩], 1),
        (⟨lit "remove", nativeRemove, 1⟩, Env.serving, [.string ⟨lit "/tmp/a", by decide⟩], 1)]
      ⟨Fs.tmp, [], 0⟩).fs.Tree :=
  ⟨by decide, runCalls_tree Digests.zero Engine.zero _ (fun c hc => by
    simp only [List.mem_cons, List.not_mem_nil, or_false] at hc
    rw [fsModuleInit_exports]
    rcases hc with rfl | rfl <;> simp) _ (by decide)⟩

theorem not_escaping_name {name : Bytes} (h₁ : name ≠ lit "exists") (h₂ : name ≠ lit "randomBytes")
    (P Q : Prop) : ¬((name = lit "exists" ∧ P) ∨ (name = lit "randomBytes" ∧ Q)) := by
  rintro (⟨h, -⟩ | ⟨h, -⟩)
  exacts [h₁ h, h₂ h]

end RayaFfi.Contract
