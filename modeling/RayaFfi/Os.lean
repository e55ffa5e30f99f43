import RayaFfi.Value
import Mathlib.Data.List.AList

namespace RayaFfi.Os

open Value

inductive Node
  | file (content : Bytes)
  | dir
  /-- A character device such as `/dev/null`: reading it ends at once, writing to it is
  discarded. -/
  | device
  deriving DecidableEq

/-- Where a node sits: the names leading to it, innermost first, so `/tmp/a.txt` is
`[a.txt, tmp]` and the root is `[]`. -/
abbrev Loc := List Bytes

structure Fs where
  entries : AList fun _ : Loc => Node
  cwd : Loc

def Fs.node (fs : Fs) : Loc → Option Node
  | [] => some .dir
  | l@(_ :: _) => fs.entries.lookup l

def Fs.set (fs : Fs) (l : Loc) : Option Node → Fs
  | some n => { fs with entries := fs.entries.insert l n }
  | none => { fs with entries := fs.entries.erase l }

def Fs.children (fs : Fs) (l : Loc) : List Bytes :=
  fs.entries.keys.filterMap fun
    | c :: up => if up = l then some c else none
    | [] => none

/-- Every node hangs in a directory. -/
def Fs.Tree (fs : Fs) : Prop :=
  ∀ l ∈ fs.entries.keys, l ≠ [] ∧ fs.node l.tail = some .dir

instance : DecidablePred Fs.Tree := fun fs =>
  inferInstanceAs (Decidable (∀ l ∈ fs.entries.keys, l ≠ [] ∧ fs.node l.tail = some .dir))

def Fs.tmp : Fs := ⟨(∅ : AList fun _ : Loc => Node).insert [lit "tmp"] .dir, []⟩

@[simp] theorem Fs.node_nil (fs : Fs) : fs.node [] = some .dir := rfl

theorem Fs.node_cons (fs : Fs) (c : Bytes) (up : Loc) :
    fs.node (c :: up) = fs.entries.lookup (c :: up) := rfl

@[simp] theorem Fs.set_node_self (fs : Fs) {l : Loc} (hl : l ≠ []) (n : Option Node) :
    (fs.set l n).node l = n := by
  obtain ⟨c, up, rfl⟩ := List.exists_cons_of_ne_nil hl
  cases n <;> simp [Fs.set, Fs.node_cons]

@[simp] theorem Fs.set_node_of_ne (fs : Fs) {l q : Loc} (n : Option Node) (h : q ≠ l) :
    (fs.set l n).node q = fs.node q := by
  cases q with
  | nil => rfl
  | cons c up => cases n <;> simp [Fs.set, Fs.node_cons, AList.lookup_insert_ne h, AList.lookup_erase_ne h]

@[simp] theorem Fs.set_cwd (fs : Fs) (l : Loc) (n : Option Node) : (fs.set l n).cwd = fs.cwd := by
  cases n <;> rfl

theorem Fs.mem_keys_iff {fs : Fs} {l : Loc} (hl : l ≠ []) : l ∈ fs.entries.keys ↔ fs.node l ≠ none := by
  obtain ⟨c, up, rfl⟩ := List.exists_cons_of_ne_nil hl
  rw [Fs.node_cons, Ne, AList.lookup_eq_none, not_not, AList.mem_keys]

theorem Fs.mem_children {fs : Fs} {l : Loc} {c : Bytes} : c ∈ fs.children l ↔ c :: l ∈ fs.entries.keys := by
  simp only [Fs.children, List.mem_filterMap]
  constructor
  · rintro ⟨_ | ⟨c', up⟩, hk, hc⟩
    · cases hc
    · simp only at hc
      split_ifs at hc with h
      cases hc
      exact h ▸ hk
  · exact fun h => ⟨c :: l, h, if_pos rfl⟩

theorem Fs.children_eq_nil {fs : Fs} {l : Loc} : fs.children l = [] ↔ ∀ c, fs.node (c :: l) = none := by
  rw [List.eq_nil_iff_forall_not_mem]
  exact forall_congr' fun c => by rw [Fs.mem_children, Fs.mem_keys_iff (List.cons_ne_nil _ _), not_not]

theorem Fs.Tree.children_of_ne_dir {fs : Fs} (h : fs.Tree) {l : Loc} (hl : fs.node l ≠ some .dir) :
    fs.children l = [] :=
  List.eq_nil_iff_forall_not_mem.2 fun _ hc => hl (h _ (Fs.mem_children.1 hc)).2

theorem Fs.Tree.set_some {fs : Fs} (h : fs.Tree) {l : Loc} (hl : l ≠ [])
    (hup : fs.node l.tail = some .dir) {n : Node} (hn : fs.node l = some .dir → n = .dir) :
    (fs.set l (some n)).Tree := by
  have htail : l.tail ≠ l := by
    obtain ⟨c, up, rfl⟩ := List.exists_cons_of_ne_nil hl
    exact (List.cons_ne_self c up).symm
  intro q hq
  rw [← AList.mem_keys] at hq
  simp only [Fs.set, AList.mem_insert] at hq
  rcases hq with rfl | hq
  · exact ⟨hl, by rw [Fs.set_node_of_ne _ _ htail, hup]⟩
  · have hq' := h q (AList.mem_keys.1 hq)
    refine ⟨hq'.1, ?_⟩
    by_cases ht : q.tail = l
    · rw [ht, Fs.set_node_self _ hl, hn (ht ▸ hq'.2)]
    · rw [Fs.set_node_of_ne _ _ ht, hq'.2]

theorem Fs.Tree.set_none {fs : Fs} (h : fs.Tree) {l : Loc} (hc : fs.children l = []) :
    (fs.set l none).Tree := by
  intro q hq
  rw [← AList.mem_keys] at hq
  simp only [Fs.set, AList.mem_erase] at hq
  have hq' := h q (AList.mem_keys.1 hq.2)
  refine ⟨hq'.1, ?_⟩
  by_cases ht : q.tail = l
  · obtain ⟨c, up, rfl⟩ := List.exists_cons_of_ne_nil hq'.1
    cases ht
    exact absurd (Fs.mem_children.2 (AList.mem_keys.1 hq.2)) (hc ▸ List.not_mem_nil c)
  · rw [Fs.set_node_of_ne _ _ ht, hq'.2]

theorem Fs.Tree.node_tail {fs : Fs} (h : fs.Tree) {c : Bytes} {l : Loc} (hn : fs.node (c :: l) ≠ none) :
    fs.node l = some .dir :=
  (h _ ((Fs.mem_keys_iff (List.cons_ne_nil _ _)).2 hn)).2

theorem Fs.Tree.dir_of_append {fs : Fs} (h : fs.Tree) {l : Loc} :
    ∀ q : List Bytes, fs.node (q ++ l) = some .dir → fs.node l = some .dir
  | [], hq => hq
  | _ :: q, hq => h.dir_of_append q (h.node_tail (by rw [List.cons_append] at hq; rw [hq]; nofun))

theorem Fs.Tree.none_append {fs : Fs} (h : fs.Tree) {l : Loc} (hl : fs.node l = none) :
    ∀ q : List Bytes, fs.node (q ++ l) = none
  | [] => hl
  | _ :: q => by
      by_contra hn
      have : fs.node (q ++ l) = some .dir := h.node_tail hn
      rw [h.none_append hl q] at this
      cases this

def Fs.Grows (fs fs' : Fs) : Prop :=
  ∀ l, fs'.node l ≠ fs.node l → fs.node l = none ∧ fs'.node l = some .dir

theorem Fs.Grows.refl (fs : Fs) : fs.Grows fs := fun _ h => absurd rfl h

theorem Fs.Grows.trans {fs fs' fs'' : Fs} (h : fs.Grows fs') (h' : fs'.Grows fs'') : fs.Grows fs'' := by
  intro l hl
  by_cases h₁ : fs'.node l = fs.node l
  · exact h₁ ▸ h' l (h₁ ▸ hl)
  · obtain ⟨h₀, hd⟩ := h l h₁
    refine ⟨h₀, ?_⟩
    by_contra h₂
    exact absurd (h' l (fun e => h₂ (e.trans hd))).1 (by rw [hd]; nofun)

theorem Fs.Grows.set_dir {fs : Fs} {l : Loc} (hl : fs.node l = none) : fs.Grows (fs.set l (some .dir)) := by
  intro q hq
  by_cases h : q = l
  · subst h
    have hne : q ≠ [] := by rintro rfl; cases hl
    exact ⟨hl, Fs.set_node_self _ hne _⟩
  · exact absurd (Fs.set_node_of_ne _ _ h) hq

inductive Errno
  | noent
  | notdir
  | isdir
  | exist
  | notempty
  | inval
  | busy
  | nametoolong
  deriving DecidableEq

def Errno.message : Errno → Bytes
  | .noent => lit "No such file or directory"
  | .notdir => lit "Not a directory"
  | .isdir => lit "Is a directory"
  | .exist => lit "File exists"
  | .notempty => lit "Directory not empty"
  | .inval => lit "Invalid argument"
  | .busy => lit "Device or resource busy"
  | .nametoolong => lit "File name too long"

def slash : UInt8 := 47

def dot : Bytes := lit "."

def dotdot : Bytes := lit ".."

def components (path : Bytes) : List Bytes := (path.splitOn slash).filter (· ≠ [])

def absolute (path : Bytes) : Bool := path.head? = some slash

def trailing (path : Bytes) : Bool := path.getLast? = some slash

def enter (d : Loc) (c : Bytes) : Loc := if c = dot then d else if c = dotdot then d.tail else c :: d

inductive Lookup
  | found (l : Loc) (n : Node)
  | missing (l : Loc)
  | fails (e : Errno)
  deriving DecidableEq

def Lookup.isFound : Lookup → Bool
  | .found _ _ => true
  | _ => false

/-- Path resolution from the directory `d`: every name but the last must lead to a directory,
and a last name not there is `missing` in `d`. -/
def walk (fs : Fs) (d : Loc) : List Bytes → Lookup
  | [] => .found d .dir
  | c :: cs =>
      match fs.node (enter d c), cs with
      | some .dir, _ => walk fs (enter d c) cs
      | some n, [] => .found (enter d c) n
      | some _, _ :: _ => .fails .notdir
      | none, [] => if c = dot ∨ c = dotdot then .fails .noent else .missing (c :: d)
      | none, _ :: _ => .fails .noent

def start (fs : Fs) (abs : Bool) : Loc := if abs then [] else fs.cwd

def lookupIn (fs : Fs) (abs : Bool) (names : List Bytes) : Lookup :=
  if fs.node (start fs abs) = some .dir then walk fs (start fs abs) names else .fails .noent

/-- What the system makes of a path: an empty one names nothing, and a trailing `/` asks for a
directory. -/
def resolve (fs : Fs) (path : Bytes) : Lookup :=
  if path = [] then .fails .noent else
  match lookupIn fs (absolute path) (components path) with
  | .found l n => if trailing path && n != .dir then .fails .notdir else .found l n
  | r => r

theorem walk_found {fs : Fs} {d : Loc} (hd : fs.node d = some .dir) {cs : List Bytes} {l : Loc}
    {n : Node} (h : walk fs d cs = .found l n) : fs.node l = some n := by
  induction cs generalizing d with
  | nil => cases h; exact hd
  | cons c cs ih =>
      simp only [walk] at h
      split at h
      · exact ih ‹_› h
      · cases h; assumption
      all_goals (try split_ifs at h) <;> cases h

theorem walk_missing {fs : Fs} {d : Loc} (hd : fs.node d = some .dir) {cs : List Bytes} {l : Loc}
    (h : walk fs d cs = .missing l) :
    ∃ c up, l = c :: up ∧ fs.node up = some .dir ∧ fs.node l = none := by
  induction cs generalizing d with
  | nil => cases h
  | cons c cs ih =>
      simp only [walk] at h
      split at h
      · exact ih ‹_› h
      · cases h
      · cases h
      · split_ifs at h with hc
        cases h
        simp only [not_or] at hc
        refine ⟨c, d, rfl, hd, ?_⟩
        rwa [enter, if_neg hc.1, if_neg hc.2] at *
      · cases h

theorem lookupIn_found {fs : Fs} {abs : Bool} {names : List Bytes} {l : Loc} {n : Node}
    (h : lookupIn fs abs names = .found l n) : fs.node l = some n := by
  unfold lookupIn at h
  split_ifs at h with hd
  exact walk_found hd h

theorem lookupIn_missing {fs : Fs} {abs : Bool} {names : List Bytes} {l : Loc}
    (h : lookupIn fs abs names = .missing l) :
    ∃ c up, l = c :: up ∧ fs.node up = some .dir ∧ fs.node l = none := by
  unfold lookupIn at h
  split_ifs at h with hd
  exact walk_missing hd h

theorem resolve_found {fs : Fs} {path : Bytes} {l : Loc} {n : Node}
    (h : resolve fs path = .found l n) : fs.node l = some n := by
  unfold resolve at h
  split_ifs at h
  split at h
  · split_ifs at h
    cases h
    exact lookupIn_found ‹_›
  · exact lookupIn_found h

theorem resolve_missing {fs : Fs} {path : Bytes} {l : Loc} (h : resolve fs path = .missing l) :
    ∃ c up, l = c :: up ∧ fs.node up = some .dir ∧ fs.node l = none := by
  unfold resolve at h
  split_ifs at h
  split at h
  · split_ifs at h
  · exact lookupIn_missing h

theorem enter_of_plain {d : Loc} {c : Bytes} (hc : c ≠ dot ∧ c ≠ dotdot) : enter d c = c :: d := by
  rw [enter, if_neg hc.1, if_neg hc.2]

theorem walk_cons_dir {fs : Fs} {d : Loc} {c : Bytes} (hc : c ≠ dot ∧ c ≠ dotdot) (cs : List Bytes)
    (hn : fs.node (c :: d) = some .dir) : walk fs d (c :: cs) = walk fs (c :: d) cs := by
  simp only [walk, enter_of_plain hc, hn]

theorem walk_append {fs : Fs} (h : fs.Tree) {d : Loc} (p q : List Bytes)
    (hp : ∀ c ∈ p, c ≠ dot ∧ c ≠ dotdot) (hd : fs.node (p.reverse ++ d) = some .dir) :
    walk fs d (p ++ q) = walk fs (p.reverse ++ d) q := by
  induction p generalizing d with
  | nil => rfl
  | cons c cs ih =>
      have hd' : fs.node (cs.reverse ++ c :: d) = some .dir := by simpa using hd
      rw [List.cons_append, walk_cons_dir (hp c (List.mem_cons_self _ _)) _
        (h.dir_of_append _ hd'), ih (fun x hx => hp x (List.mem_cons_of_mem _ hx)) hd']
      simp

theorem walk_found_loc {fs : Fs} {d : Loc} {p : List Bytes} (hp : ∀ c ∈ p, c ≠ dot ∧ c ≠ dotdot)
    {l : Loc} {n : Node} (h : walk fs d p = .found l n) : l = p.reverse ++ d := by
  induction p generalizing d with
  | nil => cases h; rfl
  | cons c cs ih =>
      have hc := hp c (List.mem_cons_self _ _)
      simp only [walk, enter_of_plain hc] at h
      split at h
      · rw [ih (fun x hx => hp x (List.mem_cons_of_mem _ hx)) h]
        simp
      · cases h; simp
      all_goals (try split_ifs at h) <;> cases h

theorem walk_of_node {fs : Fs} (h : fs.Tree) {d : Loc} (hd : fs.node d = some .dir) {p : List Bytes}
    (hp : ∀ c ∈ p, c ≠ dot ∧ c ≠ dotdot) {n : Node} (hn : fs.node (p.reverse ++ d) = some n) :
    walk fs d p = .found (p.reverse ++ d) n := by
  rcases List.eq_nil_or_concat p with rfl | ⟨p', c, rfl⟩
  · cases hn.symm.trans hd
    rfl
  · simp only [List.concat_eq_append] at hp hn ⊢
    have hn' : fs.node (c :: (p'.reverse ++ d)) = some n := by simpa using hn
    have hup : fs.node (p'.reverse ++ d) = some .dir := h.node_tail (by rw [hn']; nofun)
    rw [walk_append h p' [c] (fun x hx => hp x (by simp [hx])) hup]
    simp only [walk, enter_of_plain (hp c (by simp)), hn']
    cases n <;> simp

theorem walk_ne_found {fs : Fs} {d : Loc} {p : List Bytes} (hp : ∀ c ∈ p, c ≠ dot ∧ c ≠ dotdot)
    (hn : fs.node (p.reverse ++ d) = none) (hd : fs.node d = some .dir) : (walk fs d p).isFound = false := by
  cases hw : walk fs d p with
  | found l n =>
      have := walk_found hd hw
      rw [walk_found_loc hp hw, hn] at this
      cases this
  | missing l => rfl
  | fails e => rfl

theorem lookupIn_of_dir {fs : Fs} {abs : Bool} (hs : fs.node (start fs abs) = some .dir)
    (names : List Bytes) : lookupIn fs abs names = walk fs (start fs abs) names := by
  rw [lookupIn, if_pos hs]

theorem lookupIn_of_not_dir {fs : Fs} {abs : Bool} (hs : fs.node (start fs abs) ≠ some .dir)
    (names : List Bytes) : lookupIn fs abs names = .fails .noent := by
  rw [lookupIn, if_neg hs]

theorem lookupIn_of_node {fs : Fs} (h : fs.Tree) {abs : Bool} (hs : fs.node (start fs abs) = some .dir)
    {p : List Bytes} (hp : ∀ c ∈ p, c ≠ dot ∧ c ≠ dotdot) {n : Node}
    (hn : fs.node (p.reverse ++ start fs abs) = some n) :
    lookupIn fs abs p = .found (p.reverse ++ start fs abs) n := by
  rw [lookupIn_of_dir hs, walk_of_node h hs hp hn]

@[simp] theorem start_set (fs : Fs) (abs : Bool) (l : Loc) (n : Option Node) :
    start (fs.set l n) abs = start fs abs := by
  simp [start]

theorem resolve_found_lookupIn {fs : Fs} {path : Bytes} {l : Loc} {n : Node}
    (h : resolve fs path = .found l n) : lookupIn fs (absolute path) (components path) = .found l n := by
  unfold resolve at h
  split_ifs at h
  split at h
  · split_ifs at h
    cases h
    assumption
  · exact h

theorem resolve_of_found {fs : Fs} {path : Bytes} {l : Loc} {n : Node} (hp : path ≠ [])
    (h : lookupIn fs (absolute path) (components path) = .found l n) :
    resolve fs path = if trailing path && n != .dir then .fails .notdir else .found l n := by
  unfold resolve
  rw [if_neg hp, h]

theorem resolve_isFound {fs : Fs} {path : Bytes} (hp : path ≠ [])
    (h : (lookupIn fs (absolute path) (components path)).isFound = false) :
    (resolve fs path).isFound = false := by
  unfold resolve
  rw [if_neg hp]
  cases hl : lookupIn fs (absolute path) (components path) with
  | found l n => rw [hl] at h; cases h
  | missing l => rfl
  | fails e => rfl

/-- How a walk can end where a write may put a regular file: at a node that is no directory, or
at a missing last name. -/
def EndsAt (r : Lookup) (l : Loc) : Prop := (∃ m, r = .found l m ∧ m ≠ .dir) ∨ r = .missing l

theorem EndsAt.ne_dir {fs : Fs} {d : Loc} (hd : fs.node d = some .dir) {cs : List Bytes} {l : Loc}
    (h : EndsAt (walk fs d cs) l) : fs.node l ≠ some .dir := by
  rcases h with ⟨m, hw, hm⟩ | hw
  · rw [walk_found hd hw]; exact fun he => hm (Option.some.inj he)
  · obtain ⟨_, _, -, -, hn⟩ := walk_missing hd hw; rw [hn]; nofun

/-- A walk that ends at `l` sees the node put there afterwards: every location it passes is a
directory, so none of them is `l`. -/
theorem walk_set {fs : Fs} {d : Loc} (hd : fs.node d = some .dir) {cs : List Bytes} {l : Loc}
    (h : EndsAt (walk fs d cs) l) (n : Node) : walk (fs.set l (some n)) d cs = .found l n := by
  have hl := h.ne_dir hd
  have hl₀ : l ≠ [] := by rintro rfl; exact hl rfl
  induction cs generalizing d with
  | nil => rcases h with ⟨m, hw, hm⟩ | hw <;> cases hw; exact absurd rfl hm
  | cons c cs ih =>
      simp only [EndsAt, walk] at h ⊢
      split at h
      · rename_i hdir
        have hne : enter d c ≠ l := fun he => hl (he ▸ hdir)
        simp only [Fs.set_node_of_ne _ _ hne, hdir]
        exact ih hdir h
      · rcases h with ⟨m', hw, hm'⟩ | hw <;> cases hw
        rw [Fs.set_node_self _ hl₀]
        cases n <;> rfl
      · rcases h with ⟨_, hw, -⟩ | hw <;> cases hw
      · split_ifs at h with hc
        · rcases h with ⟨_, hw, -⟩ | hw <;> cases hw
        · rcases h with ⟨_, hw, -⟩ | hw <;> cases hw
          simp only [not_or] at hc
          rw [enter_of_plain hc, Fs.set_node_self _ hl₀]
          cases n <;> rfl
      · rcases h with ⟨_, hw, -⟩ | hw <;> cases hw

theorem lookupIn_set {fs : Fs} {abs : Bool} {names : List Bytes} {l : Loc}
    (h : EndsAt (lookupIn fs abs names) l) (n : Node) :
    lookupIn (fs.set l (some n)) abs names = .found l n := by
  have hs : fs.node (start fs abs) = some .dir := by
    by_contra hs
    rw [lookupIn_of_not_dir hs] at h
    rcases h with ⟨_, h, -⟩ | h <;> cases h
  rw [lookupIn_of_dir hs] at h
  have hne : start fs abs ≠ l := fun he => h.ne_dir hs (he ▸ hs)
  rw [lookupIn_of_dir (by rw [start_set, Fs.set_node_of_ne _ _ hne, hs]), start_set, walk_set hs h]

theorem resolve_missing_lookupIn {fs : Fs} {path : Bytes} {l : Loc} (h : resolve fs path = .missing l) :
    lookupIn fs (absolute path) (components path) = .missing l := by
  unfold resolve at h
  split_ifs at h
  split at h
  · split_ifs at h
  · exact h

/-- How the OS serves the `std::ifstream` of one read: as the file system holds the file, or
with the open refused (permissions, descriptors), or with an exception while reading, which
`basic_filebuf::underflow` throws on a failing `read`. -/
inductive ReadFate
  | clean
  | openFails
  | throws (what : Bytes)

/-- How the OS serves the `std::ofstream` of one write. With `insertFails kept` the insertion
sets failbit after `kept` bytes reached the file; with `closeFails kept` the insertion only
fills the stream buffer, and the flush of the destructor at scope exit stops after `kept` bytes. -/
inductive WriteFate
  | written
  | openFails
  | insertFails (kept : Nat)
  | closeFails (kept : Nat)
  | throws (what : Bytes)

inductive ProbeFate
  | answers
  | throws (what : Bytes)

/-- How the OS serves `create_directories`: `fails made message` lets `made` directories be made
and fails the call after them, at its first `status` query when `made = 0`. -/
inductive MkdirFate
  | done
  | fails (made : Nat) (message : Bytes)
  | throws (what : Bytes)

def MkdirFate.refusal : MkdirFate → Nat → Option Bytes
  | .fails k message, made => if made = k then some message else none
  | _, _ => none

inductive DirFate
  | done
  | fails (message : Bytes)
  | throws (what : Bytes)

inductive ListFate
  | answers
  | throws (what : Bytes)

inductive RdFate
  | answers (value : UInt32)
  | throws (what : Bytes)

structure Env where
  rd : RdFate
  read : ReadFate
  write : WriteFate
  probe : ProbeFate
  mkdir : MkdirFate
  remove : DirFate
  listing : ListFate

def Env.serving : Env := ⟨.answers 0, .clean, .written, .answers, .done, .done, .answers⟩

inductive Drain
  | notOpen
  | drained (data : Bytes)
  | threw (what : Bytes)

def underflowWhat : Bytes := lit "basic_filebuf::underflow error reading the file: Is a directory"

/-- `std::ifstream file(path)` drained by `istreambuf_iterator`: a directory opens, and its
first read throws from `underflow`, which the iterator does not catch. -/
def ifstreamDrain (fate : ReadFate) (fs : Fs) (path : Bytes) : Drain :=
  match fate, resolve fs path with
  | .throws what, _ => .threw what
  | .openFails, _ => .notOpen
  | .clean, .found _ (.file c) => .drained c
  | .clean, .found _ .device => .drained []
  | .clean, .found _ .dir => .threw underflowWhat
  | .clean, _ => .notOpen

/-- Where `open(path, O_WRONLY | O_CREAT | O_TRUNC)` sends the data: a regular file at a
location, made if missing, a device (`none`), or nowhere when the open fails (`EISDIR` on a
directory or on a missing name with a trailing `/`, and every failure of resolution). -/
def openWrite (fs : Fs) (path : Bytes) : Option (Option Loc) :=
  match resolve fs path with
  | .found l (.file _) => some (some l)
  | .found _ .device => some none
  | .missing l => if trailing path then none else some (some l)
  | _ => none

/-- Once `open` for writing has put a regular file where it led, the path names that file. -/
theorem resolve_set_of_openWrite {fs : Fs} {path : Bytes} {l : Loc}
    (h : openWrite fs path = some (some l)) (n : Node) : resolve (fs.set l (some n)) path = .found l n := by
  have hp : path ≠ [] := by rintro rfl; simp [openWrite, resolve] at h
  have hend : EndsAt (lookupIn fs (absolute path) (components path)) l ∧ trailing path = false := by
    unfold openWrite at h
    split at h
    · rename_i c hr
      cases h
      have hlk := resolve_found_lookupIn hr
      rw [resolve_of_found hp hlk] at hr
      refine ⟨.inl ⟨_, hlk, nofun⟩, ?_⟩
      cases ht : trailing path
      · rfl
      · simp [ht] at hr
    · cases h
    · rename_i hr
      split_ifs at h with ht
      cases h
      exact ⟨.inr (resolve_missing_lookupIn hr), by simpa using ht⟩
    · cases h
  rw [resolve_of_found hp (lookupIn_set hend.1 n), hend.2]
  rfl

theorem openWrite_device {fs : Fs} {path : Bytes} (h : openWrite fs path = some none) :
    ∃ l, resolve fs path = .found l .device := by
  unfold openWrite at h
  split at h
  · cases h
  · exact ⟨_, ‹_›⟩
  · split_ifs at h
    cases h
  · cases h

def Fs.put (fs : Fs) (target : Option Loc) (data : Bytes) : Fs :=
  match target with
  | some l => fs.set l (some (.file data))
  | none => fs

inductive OfstreamRun
  | ran (isOpen fail : Bool) (fs : Fs)
  | threw (what : Bytes)

def ofstream (fate : WriteFate) (fs : Fs) (path content : Bytes) : OfstreamRun :=
  match fate, openWrite fs path with
  | .throws what, _ => .threw what
  | .openFails, _ => .ran false false fs
  | _, none => .ran false false fs
  | .written, some t => .ran true false (fs.put t content)
  | .insertFails kept, some t => .ran true true (fs.put t (content.take kept))
  | .closeFails kept, some t => .ran true false (fs.put t (content.take kept))

inductive EcCall
  | returned (value : Bool) (ec : Option Bytes) (fs : Fs)
  | threw (what : Bytes)

/-- The climb of `create_directories` from the whole path towards the root, over the names
innermost first: each prefix not ending in `.` or `..` is to be made, until a prefix exists,
which must be a directory. The result lists the prefixes to make shortest first. -/
def climb (fs : Fs) (abs : Bool) : List Bytes → List (List Bytes) → Except Errno (List (List Bytes))
  | [], todo => .ok todo
  | c :: up, todo =>
      let todo := if c = dot ∨ c = dotdot then todo else (c :: up).reverse :: todo
      if 1000 < todo.length then .error .nametoolong else
      match up with
      | [] => .ok todo
      | _ :: _ =>
          match lookupIn fs abs up.reverse with
          | .found _ .dir => .ok todo
          | .found _ _ => .error .notdir
          | _ => climb fs abs up todo

def makeDirs (fate : MkdirFate) (abs : Bool) (made : Nat) (created : Bool) (fs : Fs) :
    List (List Bytes) → EcCall
  | [] => .returned created none fs
  | p :: ps =>
      match fate.refusal made with
      | some message => .returned false (some message) fs
      | none =>
          match lookupIn fs abs p with
          | .missing l => makeDirs fate abs (made + 1) true (fs.set l (some .dir)) ps
          | .found _ .dir => makeDirs fate abs made false fs ps
          | .found _ _ => .returned false (some Errno.exist.message) fs
          | .fails e => .returned false (some e.message) fs

/-- `std::filesystem::create_directories(path, ec)` as libstdc++ does it: `EINVAL` on an empty
path, nothing on a directory, `ENOTDIR` on anything else that exists, and otherwise the climb,
then the missing directories made shortest first. -/
def createDirectories (fate : MkdirFate) (fs : Fs) (path : Bytes) : EcCall :=
  if path = [] then .returned false (some Errno.inval.message) fs else
  match fate with
  | .throws what => .threw what
  | .fails 0 message => .returned false (some message) fs
  | _ =>
      match resolve fs path with
      | .found _ .dir => .returned false none fs
      | .found _ _ => .returned false (some Errno.notdir.message) fs
      | _ =>
          match climb fs (absolute path) (components path).reverse [] with
          | .error e => .returned false (some e.message) fs
          | .ok todo => makeDirs fate (absolute path) 0 false fs todo

def rmdirError (fs : Fs) (path : Bytes) (l : Loc) : Option Errno :=
  if (components path).getLast? = some dot then some .inval
  else if (components path).getLast? = some dotdot then some .notempty
  else if l = [] then some .busy
  else if fs.children l ≠ [] then some .notempty
  else none

/-- `std::filesystem::remove(path, ec)`: C `remove`, that is `unlink`, then `rmdir` on a
directory; a path that names nothing is no error. -/
def remove (fate : DirFate) (fs : Fs) (path : Bytes) : EcCall :=
  match fate with
  | .throws what => .threw what
  | .fails message => .returned false (some message) fs
  | .done =>
      match resolve fs path with
      | .missing _ | .fails .noent => .returned false none fs
      | .fails e => .returned false (some e.message) fs
      | .found l .dir =>
          match rmdirError fs path l with
          | some e => .returned false (some e.message) fs
          | none => .returned true none (fs.set l none)
      | .found l _ => .returned true none (fs.set l none)

/-- `std::filesystem::exists(path)`: a path that names nothing is false, other failures throw
`filesystem_error`. -/
def fsExists (fate : ProbeFate) (fs : Fs) (path : Bytes) : Except Bytes Bool :=
  match fate with
  | .answers => .ok (resolve fs path).isFound
  | .throws what => .error what

def iteratorWhat (path : Bytes) (e : Errno) : Bytes :=
  lit "filesystem error: directory iterator cannot open directory: " ++ e.message ++ lit " [" ++
    path ++ lit "]"

def directoryIterator (fate : ListFate) (fs : Fs) (path : Bytes) : Except Bytes (List Bytes) :=
  match fate with
  | .throws what => .error what
  | .answers =>
      match resolve fs path with
      | .found l .dir => .ok (fs.children l)
      | .found _ _ => .error (iteratorWhat path .notdir)
      | .missing _ => .error (iteratorWhat path .noent)
      | .fails e => .error (iteratorWhat path e)

end RayaFfi.Os
