import RayaFfi.Os

namespace RayaFfi.Fs.Ops

open Value Os

abbrev Result (α : Type) := α ⊕ Bytes

/-- `fs_ops::read_file`. The source returns both texts into `std::variant<std::string,
std::string>`; the model keeps the content as the first alternative. -/
def readFile (fate : ReadFate) (path : Bytes) (fs : Fs) : Result Bytes :=
  match ifstreamDrain fate fs path with
  | .notOpen => .inr (lit "Failed to open file: " ++ path)
  | .drained content => .inl content
  | .threw what => .inr (lit "Error reading file: " ++ what)

/-- `fs_ops::write_file`. Nothing checks the stream after the close at scope exit. -/
def writeFile (fate : WriteFate) (path content : Bytes) (fs : Fs) : Result Bool × Fs :=
  match ofstream fate fs path content with
  | .threw what => (.inr (lit "Error writing file: " ++ what), fs)
  | .ran isOpen fail fs' =>
      if !isOpen then (.inr (lit "Failed to open file for writing: " ++ path), fs')
      else if fail then (.inr (lit "Failed to write to file: " ++ path), fs')
      else (.inl true, fs')

/-- `fs_ops::exists`: with no `try`, the exception of `std::filesystem::exists` propagates. -/
def pathExists (fate : ProbeFate) (path : Bytes) (fs : Fs) : Except Bytes Bool :=
  fsExists fate fs path

def mkdir (fate : MkdirFate) (path : Bytes) (fs : Fs) : Result Bool × Fs :=
  match createDirectories fate fs path with
  | .threw what => (.inr (lit "Error creating directory: " ++ what), fs)
  | .returned _ (some message) fs' => (.inr (lit "Failed to create directory: " ++ message), fs')
  | .returned created none fs' => (.inl created, fs')

def remove (fate : DirFate) (path : Bytes) (fs : Fs) : Result Bool × Fs :=
  match Os.remove fate fs path with
  | .threw what => (.inr (lit "Error removing: " ++ what), fs)
  | .returned _ (some message) fs' => (.inr (lit "Failed to remove: " ++ message), fs')
  | .returned removed none fs' => (.inl removed, fs')

def listDir (fate : ListFate) (path : Bytes) (fs : Fs) : Result (List Bytes) :=
  match directoryIterator fate fs path with
  | .ok entries => .inl entries
  | .error what => .inr (lit "Error listing directory: " ++ what)

theorem readFile_inr {fate : ReadFate} {path message : Bytes} {fs : Fs}
    (h : readFile fate path fs = .inr message) :
    lit "Failed" <+: message ∨ lit "Error" <+: message := by
  unfold readFile at h
  split at h <;> simp only [Sum.inr.injEq, reduceCtorEq] at h <;> subst h
  · exact .inl ⟨lit " to open file: " ++ path, by simp [lit]⟩
  · rename_i what _
    exact .inr ⟨lit " reading file: " ++ what, by simp [lit]⟩

theorem openWrite_target {fs : Fs} {path : Bytes} {l : Loc} (h : openWrite fs path = some (some l)) :
    l ≠ [] ∧ (fs.Tree → fs.node l.tail = some .dir) ∧
      (fs.node l = none ∨ ∃ c, fs.node l = some (.file c)) := by
  unfold openWrite at h
  split at h
  · cases h
    have hn := resolve_found ‹_›
    have hl : l ≠ [] := by rintro rfl; cases hn
    exact ⟨hl, fun ht => (ht l ((Fs.mem_keys_iff hl).2 (by rw [hn]; nofun))).2, .inr ⟨_, hn⟩⟩
  · cases h
  · split_ifs at h
    cases h
    obtain ⟨c, up, rfl, hup, hn⟩ := resolve_missing ‹_›
    exact ⟨List.cons_ne_nil _ _, fun _ => hup, .inl hn⟩
  · cases h

theorem writeFile_fs (fate : WriteFate) (path content : Bytes) (fs : Fs) :
    (writeFile fate path content fs).2 = fs ∨ ∃ l data, openWrite fs path = some (some l) ∧
      (writeFile fate path content fs).2 = fs.set l (some (.file data)) := by
  unfold writeFile ofstream
  rcases ho : openWrite fs path with _ | _ | l <;> cases fate <;>
    simp only [Fs.put, Bool.not_true, Bool.not_false, Bool.false_eq_true, if_true, if_false] <;>
    first | exact .inl trivial | exact .inl rfl | exact .inr ⟨l, _, rfl, rfl⟩

theorem writeFile_tree {fs : Fs} (h : fs.Tree) (fate : WriteFate) (path content : Bytes) :
    (writeFile fate path content fs).2.Tree := by
  rcases writeFile_fs fate path content fs with he | ⟨l, data, ho, he⟩
  · rwa [he]
  · obtain ⟨hl, hup, hn⟩ := openWrite_target ho
    rw [he]
    refine h.set_some hl (hup h) fun hd => ?_
    rcases hn with hn | ⟨c, hn⟩ <;> rw [hn] at hd <;> cases hd

theorem writeFile_frame (fate : WriteFate) (path content : Bytes) (fs : Fs) :
    ∃ l, ∀ q, (writeFile fate path content fs).2.node q ≠ fs.node q →
      q = l ∧ (fs.node q = none ∨ ∃ c, fs.node q = some (.file c)) ∧
        ∃ c, (writeFile fate path content fs).2.node q = some (.file c) := by
  rcases writeFile_fs fate path content fs with he | ⟨l, data, ho, he⟩
  · exact ⟨[], fun q hq => absurd (by rw [he]) hq⟩
  · refine ⟨l, fun q hq => ?_⟩
    rw [he] at hq ⊢
    by_cases hql : q = l
    · subst hql
      obtain ⟨hl, -, hn⟩ := openWrite_target ho
      exact ⟨rfl, hn, data, Fs.set_node_self _ hl _⟩
    · exact absurd (Fs.set_node_of_ne _ _ hql) hq

theorem makeDirs_grows (fate : MkdirFate) (abs : Bool) (todo : List (List Bytes)) :
    ∀ made created fs, ∃ v e fs', makeDirs fate abs made created fs todo = .returned v e fs' ∧
      fs.Grows fs' ∧ (fs.Tree → fs'.Tree) := by
  induction todo with
  | nil => exact fun _ created fs => ⟨created, none, fs, rfl, .refl fs, id⟩
  | cons p ps ih =>
      intro made created fs
      simp only [makeDirs]
      split
      · exact ⟨_, _, fs, rfl, .refl fs, id⟩
      · split
        · obtain ⟨c, up, rfl, hup, hn⟩ := lookupIn_missing ‹_›
          obtain ⟨v, e, fs', he, hg, ht⟩ := ih (made + 1) true (fs.set (c :: up) (some .dir))
          exact ⟨v, e, fs', he, (Fs.Grows.set_dir hn).trans hg,
            fun h => ht (h.set_some (List.cons_ne_nil _ _) hup fun _ => rfl)⟩
        · exact ih made false fs
        · exact ⟨_, _, fs, rfl, .refl fs, id⟩
        · exact ⟨_, _, fs, rfl, .refl fs, id⟩

theorem mkdir_grows (fate : MkdirFate) (path : Bytes) (fs : Fs) :
    fs.Grows (mkdir fate path fs).2 ∧ (fs.Tree → (mkdir fate path fs).2.Tree) := by
  suffices ∀ r, createDirectories fate fs path = r → fs.Grows (mkdir fate path fs).2 ∧
      (fs.Tree → (mkdir fate path fs).2.Tree) from this _ rfl
  intro r hr
  have hfs : ∀ v e fs', r = .returned v e fs' → fs.Grows fs' ∧ (fs.Tree → fs'.Tree) := by
    intro v e fs' he
    subst he
    unfold createDirectories at hr
    split_ifs at hr
    · cases hr; exact ⟨.refl fs, id⟩
    split at hr
    · cases hr
    · cases hr; exact ⟨.refl fs, id⟩
    all_goals
      split at hr
      · cases hr; exact ⟨.refl fs, id⟩
      · cases hr; exact ⟨.refl fs, id⟩
      · split at hr
        · cases hr; exact ⟨.refl fs, id⟩
        · obtain ⟨v', e', fs'', he, hg⟩ := makeDirs_grows fate _ _ 0 false fs
          rw [he] at hr
          cases hr
          exact hg
  unfold mkdir
  rw [hr]
  cases r with
  | threw what => exact ⟨.refl fs, id⟩
  | returned v e fs' => cases e <;> exact hfs v _ fs' rfl

theorem remove_fs (fate : DirFate) (path : Bytes) (fs : Fs) :
    (remove fate path fs).2 = fs ∨ ∃ l, (remove fate path fs).2 = fs.set l none ∧
      (fs.node l = some .dir → fs.children l = []) := by
  have hos : ∀ v e fs', Os.remove fate fs path = .returned v e fs' →
      fs' = fs ∨ ∃ l, fs' = fs.set l none ∧ (fs.node l = some .dir → fs.children l = []) := by
    intro v e fs' h
    unfold Os.remove at h
    split at h
    · cases h
    · cases h; exact .inl rfl
    · split at h
      · cases h; exact .inl rfl
      · cases h; exact .inl rfl
      · cases h; exact .inl rfl
      · split at h
        · cases h; exact .inl rfl
        · rename_i l _ _ he
          cases h
          refine .inr ⟨l, rfl, fun _ => ?_⟩
          unfold rmdirError at he
          split_ifs at he with h₁ h₂ h₃ h₄
          exact not_not.1 h₄
      · cases h
        rename_i hn _
        exact .inr ⟨_, rfl, fun hd => absurd (Option.some.inj (hd.symm.trans (resolve_found ‹_›))) (Ne.symm hn)⟩
  unfold remove
  cases hr : Os.remove fate fs path with
  | threw what => exact .inl rfl
  | returned v e fs' => cases e <;> exact hos v _ fs' hr

theorem remove_frame (fate : DirFate) (path : Bytes) (fs : Fs) :
    ∃ l, ∀ q, (remove fate path fs).2.node q ≠ fs.node q →
      q = l ∧ (remove fate path fs).2.node q = none ∧ (fs.node q = some .dir → fs.children q = []) := by
  rcases remove_fs fate path fs with he | ⟨l, he, hc⟩
  · exact ⟨[], fun q hq => absurd (by rw [he]) hq⟩
  · refine ⟨l, fun q hq => ?_⟩
    rw [he] at hq ⊢
    by_cases hql : q = l
    · subst hql
      have hl : q ≠ [] := by rintro rfl; exact hq rfl
      exact ⟨rfl, Fs.set_node_self _ hl _, hc⟩
    · exact absurd (Fs.set_node_of_ne _ _ hql) hq

theorem remove_tree {fs : Fs} (h : fs.Tree) (fate : DirFate) (path : Bytes) :
    (remove fate path fs).2.Tree := by
  rcases remove_fs fate path fs with he | ⟨l, he, hc⟩
  · rwa [he]
  · rw [he]
    refine h.set_none ?_
    by_cases hd : fs.node l = some .dir
    · exact hc hd
    · exact h.children_of_ne_dir hd

end RayaFfi.Fs.Ops
