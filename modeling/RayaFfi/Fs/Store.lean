import RayaFfi.Fs.Native

namespace RayaFfi.Fs.Store

open Value Os Abi Native

inductive Request
  | readFile (path : CStr)
  | writeFile (path content : CStr)
  | pathExists (path : CStr)
  | mkdir (path : CStr)
  | remove (path : CStr)

def Request.call (env : Env) : Request → NativeM Outcome
  | .readFile path => nativeReadFile env [.string path] 1
  | .writeFile path content => nativeWriteFile env [.string path, .string content] 2
  | .pathExists path => nativeExists env [.string path] 1
  | .mkdir path => nativeMkdir env [.string path] 1
  | .remove path => nativeRemove env [.string path] 1

inductive Reply
  | text (s : Bytes)
  | flag (b : Bool)
  | done
  | failed
  deriving DecidableEq

def Reply.ofOutcome : Outcome → Reply
  | .value (.string s) => .text s.bytes
  | .value (.bool b) => .flag b
  | .value .null => .done
  | _ => .failed

/-- `mkdir -p`: each name is entered from a directory, and made first when missing. -/
def makePath (fs : Fs) (d : Loc) : List Bytes → Option Fs
  | [] => some fs
  | c :: cs =>
      if fs.node d = some .dir then
        match fs.node (enter d c) with
        | some .dir => makePath fs (enter d c) cs
        | some _ => none
        | none => makePath (fs.set (enter d c) (some .dir)) (enter d c) cs
      else none

/-- The store the fs module stands for: a tree of files, directories and devices reached by
path resolution. Reading a directory is an error, a write goes where `open` leads, `mkdir`
makes every missing directory of the path, and `remove` takes a directory only when it is
empty. -/
def step (fs : Fs) : Request → Reply × Fs
  | .readFile path =>
      match resolve fs path.bytes with
      | .found _ (.file content) => (.text content, fs)
      | .found _ .device => (.text [], fs)
      | _ => (.failed, fs)
  | .writeFile path content =>
      match openWrite fs path.bytes with
      | some target => (.done, fs.put target content.bytes)
      | none => (.failed, fs)
  | .pathExists path => (.flag (resolve fs path.bytes).isFound, fs)
  | .mkdir path =>
      if path.bytes = [] then (.failed, fs) else
      match makePath fs (start fs (absolute path.bytes)) (components path.bytes) with
      | some fs' => (.done, fs')
      | none => (.failed, fs)
  | .remove path =>
      match resolve fs path.bytes with
      | .found l n =>
          if n = .dir ∧ (rmdirError fs path.bytes l).isSome then (.failed, fs)
          else (.flag true, fs.set l none)
      | .missing _ | .fails .noent => (.flag false, fs)
      | .fails _ => (.failed, fs)

def run (fs : Fs) : List Request → List Reply × Fs
  | [] => ([], fs)
  | r :: rs => ((step fs r).1 :: (run (step fs r).2 rs).1, (run (step fs r).2 rs).2)

def FaultFree (env : Env) : Prop :=
  env.read = .clean ∧ env.write = .written ∧ env.probe = .answers ∧ env.mkdir = .done ∧
    env.remove = .done

def Clean (fs : Fs) : Prop :=
  ∀ l content, fs.node l = some (.file content) → (0 : UInt8) ∉ content ∧ looksLikeError content = false

/-- A written text must not look like an error, and a `mkdir` path has at most 1000 names, none
of them `.` or `..`. -/
def Request.Clean : Request → Prop
  | .writeFile _ content => looksLikeError content.bytes = false
  | .mkdir path =>
      (∀ c ∈ components path.bytes, c ≠ dot ∧ c ≠ dotdot) ∧ (components path.bytes).length ≤ 1000
  | _ => True

def serve (env : Env) : List Request → World → List Outcome × World
  | [], w => ([], w)
  | r :: rs, w =>
      ((r.call env w).1 :: (serve env rs (r.call env w).2).1, (serve env rs (r.call env w).2).2)

def prefixesFrom (pre : List Bytes) : List Bytes → List (List Bytes)
  | [] => []
  | c :: cs => (pre ++ [c]) :: prefixesFrom (pre ++ [c]) cs

theorem prefixesFrom_concat (pre q : List Bytes) (x : Bytes) :
    prefixesFrom pre (q ++ [x]) = prefixesFrom pre q ++ [pre ++ q ++ [x]] := by
  induction q generalizing pre with
  | nil => simp [prefixesFrom]
  | cons c cs ih => simp [prefixesFrom, ih]

theorem length_prefixesFrom (pre q : List Bytes) : (prefixesFrom pre q).length = q.length := by
  induction q generalizing pre with
  | nil => rfl
  | cons c cs ih => simp [prefixesFrom, ih]

def MkdirAgrees (call : EcCall) (fs : Fs) : Option Fs → Prop
  | some fs' => ∃ v, call = .returned v none fs'
  | none => ∃ message, call = .returned false (some message) fs

section Mkdir

variable {fs : Fs} {abs : Bool}

theorem makePath_append (h : fs.Tree) {d : Loc} (hd₀ : fs.node d = some .dir) (p q : List Bytes)
    (hp : ∀ c ∈ p, c ≠ dot ∧ c ≠ dotdot) (hd : fs.node (p.reverse ++ d) = some .dir) :
    makePath fs d (p ++ q) = makePath fs (p.reverse ++ d) q := by
  induction p generalizing d with
  | nil => rfl
  | cons c cs ih =>
      have hd' : fs.node (cs.reverse ++ c :: d) = some .dir := by simpa using hd
      have hc : fs.node (c :: d) = some .dir := h.dir_of_append _ hd'
      rw [List.cons_append, makePath, if_pos hd₀, enter_of_plain (hp c (List.mem_cons_self _ _)), hc]
      dsimp only
      rw [ih hc (fun x hx => hp x (List.mem_cons_of_mem _ hx)) hd']
      simp

theorem makePath_grows {d : Loc} (names : List Bytes) :
    ∀ {fs fs' : Fs}, makePath fs d names = some fs' → fs.Grows fs' := by
  induction names generalizing d with
  | nil => intro fs fs' h; cases h; exact .refl _
  | cons c cs ih =>
      intro fs fs' h
      simp only [makePath] at h
      split_ifs at h
      split at h
      · exact ih h
      · cases h
      · exact (Fs.Grows.set_dir ‹_›).trans (ih h)

theorem climb_cons {c : Bytes} (hc : c ≠ dot ∧ c ≠ dotdot) (up : List Bytes)
    (todo : List (List Bytes)) (hlen : todo.length < 1000) :
    climb fs abs (c :: up) todo =
      if up = [] then .ok ((c :: up).reverse :: todo) else
      match lookupIn fs abs up.reverse with
      | .found _ .dir => .ok ((c :: up).reverse :: todo)
      | .found _ _ => .error .notdir
      | _ => climb fs abs up ((c :: up).reverse :: todo) := by
  have h1 : ¬1000 < ((c :: up).reverse :: todo).length := by simp only [List.length_cons]; omega
  cases up <;> simp only [climb, hc.1, hc.2, or_self, if_false, h1] <;> rfl

theorem climb_missing (pre : List Bytes) (c : Bytes) (q : List Bytes) :
    ∀ todo : List (List Bytes), (∀ x ∈ q, x ≠ dot ∧ x ≠ dotdot) → todo.length + q.length ≤ 1000 →
    (∀ q₁ x, q₁ ++ [x] <+: q → (lookupIn fs abs (pre ++ c :: q₁)).isFound = false) →
    climb fs abs (pre ++ c :: q).reverse todo =
      climb fs abs (c :: pre.reverse) (prefixesFrom (pre ++ [c]) q ++ todo) := by
  induction q using List.reverseRecOn with
  | nil => intros; simp [prefixesFrom]
  | append_singleton q x ih =>
      intro todo hq hlen hmiss
      have hup : (pre ++ c :: q).reverse ≠ [] := by simp
      rw [show (pre ++ c :: (q ++ [x])).reverse = x :: (pre ++ c :: q).reverse by simp,
        climb_cons (hq x (by simp)) _ _ (by simp at hlen; omega), if_neg hup, List.reverse_reverse]
      have hnf := hmiss q x (List.prefix_refl _)
      have hrest := ih (((x :: (pre ++ c :: q).reverse).reverse) :: todo)
        (fun y hy => hq y (by simp [hy])) (by simp at hlen ⊢; omega)
        (fun q₁ y hq₁ => hmiss q₁ y (hq₁.trans (List.prefix_append _ _)))
      cases hl : lookupIn fs abs (pre ++ c :: q) with
      | found l n => rw [hl] at hnf; cases hnf
      | missing l | fails e =>
          dsimp only
          rw [hrest, prefixesFrom_concat]
          simp

theorem climb_last (pre : List Bytes) {c : Bytes} (hc : c ≠ dot ∧ c ≠ dotdot)
    (todo : List (List Bytes)) (hlen : todo.length < 1000)
    (hpre : pre = [] ∨ ∃ l, lookupIn fs abs pre = .found l .dir) :
    climb fs abs (c :: pre.reverse) todo = .ok ((pre ++ [c]) :: todo) := by
  rw [climb_cons hc _ _ hlen]
  by_cases hne : pre = []
  · subst hne
    rfl
  · obtain ⟨l, hl⟩ := hpre.resolve_left hne
    rw [if_neg (by simpa using hne), List.reverse_reverse, hl]
    simp

theorem climb_last_notdir {pre : List Bytes} {c : Bytes} (hc : c ≠ dot ∧ c ≠ dotdot)
    (todo : List (List Bytes)) (hlen : todo.length < 1000) (hpre : pre ≠ []) {l : Loc} {n : Node}
    (hl : lookupIn fs abs pre = .found l n) (hn : n ≠ .dir) :
    climb fs abs (c :: pre.reverse) todo = .error .notdir := by
  rw [climb_cons hc _ _ hlen, if_neg (by simpa using hpre), List.reverse_reverse, hl]
  cases n
  · rfl
  · exact absurd rfl hn
  · rfl

theorem makePath_step {d : Loc} {c : Bytes} (hc : c ≠ dot ∧ c ≠ dotdot) (hd : fs.node d = some .dir)
    (hn : fs.node (c :: d) = none) (q : List Bytes) :
    makePath fs d (c :: q) = makePath (fs.set (c :: d) (some .dir)) (c :: d) q := by
  simp only [makePath, if_pos hd, enter_of_plain hc, hn]

/-- One `create_directory` on a prefix that names nothing in a directory makes it. -/
theorem makeDirs_step (h : fs.Tree) (hs : fs.node (start fs abs) = some .dir) {pre : List Bytes}
    {c : Bytes} (hp : ∀ x ∈ pre ++ [c], x ≠ dot ∧ x ≠ dotdot)
    (hd : fs.node (pre.reverse ++ start fs abs) = some .dir)
    (hn : fs.node (c :: (pre.reverse ++ start fs abs)) = none) (made : Nat) (created : Bool)
    (rest : List (List Bytes)) :
    makeDirs .done abs made created fs ((pre ++ [c]) :: rest) =
      makeDirs .done abs (made + 1) true (fs.set (c :: (pre.reverse ++ start fs abs)) (some .dir)) rest := by
  have hc := hp c (by simp)
  simp only [makeDirs, MkdirFate.refusal, lookupIn_of_dir hs,
    walk_append h pre [c] (fun x hx => hp x (by simp [hx])) hd, walk, enter_of_plain hc, hn,
    hc.1, hc.2, or_self, if_false]

theorem makeDirs_fresh (q : List Bytes) :
    ∀ (pre : List Bytes) (c : Bytes) (fs : Fs) (made : Nat) (created : Bool), fs.Tree →
      fs.node (start fs abs) = some .dir → (∀ x ∈ pre ++ c :: q, x ≠ dot ∧ x ≠ dotdot) →
      fs.node (pre.reverse ++ start fs abs) = some .dir →
      fs.node (c :: (pre.reverse ++ start fs abs)) = none →
      ∃ v fs', makePath fs (pre.reverse ++ start fs abs) (c :: q) = some fs' ∧
        makeDirs .done abs made created fs (prefixesFrom pre (c :: q)) = .returned v none fs' := by
  induction q with
  | nil =>
      intro pre c fs made created h hs hp hd hn
      refine ⟨true, _, makePath_step (hp c (by simp)) hd hn [], ?_⟩
      rw [prefixesFrom, makeDirs_step h hs hp hd hn]
      rfl
  | cons c' q ih =>
      intro pre c fs made created h hs hp hd hn
      let fs₁ := fs.set (c :: (pre.reverse ++ start fs abs)) (some .dir)
      have hloc : (pre ++ [c]).reverse ++ start fs₁ abs = c :: (pre.reverse ++ start fs abs) := by
        simp [fs₁]
      have hne : start fs abs ≠ c :: (pre.reverse ++ start fs abs) := fun he => by
        rw [← he, hs] at hn; cases hn
      have hs₁ : fs₁.node (start fs₁ abs) = some .dir := by
        simp only [fs₁, start_set, Fs.set_node_of_ne _ _ hne, hs]
      have hd₁ : fs₁.node ((pre ++ [c]).reverse ++ start fs₁ abs) = some .dir := by
        rw [hloc]; exact Fs.set_node_self _ (List.cons_ne_nil _ _) _
      have hn₁ : fs₁.node (c' :: ((pre ++ [c]).reverse ++ start fs₁ abs)) = none := by
        rw [hloc, Fs.set_node_of_ne _ _ (List.cons_ne_self _ _)]
        exact h.none_append hn [c']
      obtain ⟨v, fs', hm, hmk⟩ := ih (pre ++ [c]) c' fs₁ (made + 1) true
        (h.set_some (List.cons_ne_nil _ _) hd fun _ => rfl) hs₁ (fun x hx => hp x (by simpa using hx))
        hd₁ hn₁
      rw [hloc] at hm
      refine ⟨v, fs', by rwa [makePath_step (hp c (by simp)) hd hn], ?_⟩
      rw [prefixesFrom, makeDirs_step h hs (fun x hx => hp x (by simp at hx ⊢; tauto)) hd hn]
      exact hmk

theorem exists_split (h : fs.Tree) :
    ∀ (names : List Bytes) {d : Loc}, fs.node d = some .dir →
      ∃ pre post n, names = pre ++ post ∧ fs.node (pre.reverse ++ d) = some n ∧
        ∀ c q, post = c :: q → fs.node (c :: (pre.reverse ++ d)) = none
  | [], _, hd => ⟨[], [], .dir, rfl, hd, nofun⟩
  | c :: cs, d, hd => by
      rcases hc : fs.node (c :: d) with _ | n
      · exact ⟨[], c :: cs, .dir, rfl, hd, fun c' q he => by cases he; exact hc⟩
      · by_cases hn : n = .dir
        · subst hn
          obtain ⟨pre, post, n, he, hpre, hpost⟩ := exists_split h cs hc
          exact ⟨c :: pre, post, n, by rw [he]; rfl, by simpa using hpre,
            fun c' q hq => by simpa using hpost c' q hq⟩
        · refine ⟨[c], cs, n, rfl, hc, fun c' q _ => ?_⟩
          by_contra hne
          exact hn (Option.some.inj (hc.symm.trans (h.node_tail hne)))

theorem createDirectories_climb {path : Bytes} (hp : path ≠ []) (hr : (resolve fs path).isFound = false) :
    createDirectories .done fs path =
      match climb fs (absolute path) (components path).reverse [] with
      | .error e => .returned false (some e.message) fs
      | .ok todo => makeDirs .done (absolute path) 0 false fs todo := by
  unfold createDirectories
  rw [if_neg hp]
  cases h : resolve fs path with
  | found l n => rw [h] at hr; cases hr
  | missing l | fails e => rfl

theorem createDirectories_of_dir {path : Bytes} (hp : path ≠ []) {l : Loc}
    (hr : resolve fs path = .found l .dir) : createDirectories .done fs path = .returned false none fs := by
  unfold createDirectories
  rw [if_neg hp, hr]

theorem createDirectories_of_found {path : Bytes} (hp : path ≠ []) {l : Loc} {n : Node}
    (hr : resolve fs path = .found l n) (hn : n ≠ .dir) :
    createDirectories .done fs path = .returned false (some Errno.notdir.message) fs := by
  unfold createDirectories
  rw [if_neg hp, hr]
  cases n <;> first | rfl | exact absurd rfl hn

theorem makeDirs_found {p : List Bytes} {l : Loc} {n : Node} (hl : lookupIn fs abs p = .found l n)
    (hn : n ≠ .dir) (made : Nat) (created : Bool) (ps : List (List Bytes)) :
    makeDirs .done abs made created fs (p :: ps) = .returned false (some Errno.exist.message) fs := by
  simp only [makeDirs, MkdirFate.refusal, hl]

theorem makeDirs_fails {p : List Bytes} {e : Errno} (hl : lookupIn fs abs p = .fails e) (made : Nat)
    (created : Bool) (ps : List (List Bytes)) :
    makeDirs .done abs made created fs (p :: ps) = .returned false (some e.message) fs := by
  simp only [makeDirs, MkdirFate.refusal, hl]

theorem makePath_of_ne_dir (h : fs.Tree) {d : Loc} (hd : fs.node d = some .dir) (pre : List Bytes)
    (c : Bytes) (rest : List Bytes) (hp : ∀ x ∈ pre ++ [c], x ≠ dot ∧ x ≠ dotdot) {n : Node}
    (hn : fs.node (c :: (pre.reverse ++ d)) = some n) (hnd : n ≠ .dir) :
    makePath fs d (pre ++ c :: rest) = none := by
  have hup : fs.node (pre.reverse ++ d) = some .dir := h.node_tail (by rw [hn]; nofun)
  rw [makePath_append h hd pre _ (fun x hx => hp x (by simp [hx])) hup]
  simp only [makePath, if_pos hup, enter_of_plain (hp c (by simp)), hn]

theorem exists_concat_of_ne_dir {fs : Fs} {d : Loc} (hd : fs.node d = some .dir) {p : List Bytes}
    {n : Node} (hn : fs.node (p.reverse ++ d) = some n) (hnd : n ≠ .dir) :
    ∃ pre c, p = pre ++ [c] := by
  rcases List.eq_nil_or_concat p with rfl | ⟨pre, c, rfl⟩
  · cases hnd (Option.some.inj (hn.symm.trans hd))
  · exact ⟨pre, c, List.concat_eq_append _ _⟩

theorem createDirectories_existing (h : fs.Tree) {path : Bytes} (hp : path ≠ [])
    (hs : fs.node (start fs (absolute path)) = some .dir)
    (hplain : ∀ x ∈ components path, x ≠ dot ∧ x ≠ dotdot) {n : Node}
    (hn : fs.node ((components path).reverse ++ start fs (absolute path)) = some n) :
    MkdirAgrees (createDirectories .done fs path) fs
      (makePath fs (start fs (absolute path)) (components path)) := by
  have hlk := lookupIn_of_node h hs hplain hn
  by_cases hnd : n = .dir
  · subst hnd
    have hm := makePath_append h hs (components path) [] hplain hn
    rw [List.append_nil] at hm
    rw [hm]
    exact ⟨false, createDirectories_of_dir hp (show resolve fs path =
      .found ((components path).reverse ++ start fs (absolute path)) .dir by
        rw [resolve_of_found hp hlk]; simp)⟩
  · obtain ⟨pre, c, hpc⟩ := exists_concat_of_ne_dir hs hn hnd
    rw [hpc] at hplain hn
    have hn₁ : fs.node (c :: (pre.reverse ++ start fs (absolute path))) = some n := by simpa using hn
    have hup : fs.node (pre.reverse ++ start fs (absolute path)) = some .dir :=
      h.node_tail (by rw [hn₁]; nofun)
    rw [hpc, makePath_of_ne_dir h hs pre c [] hplain hn₁ hnd]
    cases ht : trailing path
    · exact ⟨_, createDirectories_of_found hp (show resolve fs path =
        .found ((components path).reverse ++ start fs (absolute path)) n by
          rw [resolve_of_found hp hlk]; simp [ht]) hnd⟩
    · have hr : (resolve fs path).isFound = false := by
        rw [resolve_of_found hp hlk]
        simp [ht, hnd, Lookup.isFound]
      have hpre : pre = [] ∨ ∃ l, lookupIn fs (absolute path) pre = .found l .dir :=
        .inr ⟨_, lookupIn_of_node h hs (fun x hx => hplain x (by simp [hx])) hup⟩
      rw [hpc] at hlk
      refine ⟨Errno.exist.message, ?_⟩
      rw [createDirectories_climb hp hr, hpc, List.reverse_append, List.reverse_singleton,
        List.singleton_append, climb_last pre (hplain c (by simp)) [] (by decide) hpre]
      exact makeDirs_found hlk hnd _ _ _

theorem createDirectories_missing (h : fs.Tree) {path : Bytes} (hp : path ≠ [])
    (hs : fs.node (start fs (absolute path)) = some .dir)
    (hplain : ∀ x ∈ components path, x ≠ dot ∧ x ≠ dotdot) (hlen : (components path).length ≤ 1000)
    {pre q : List Bytes} {c : Bytes} (hnames : components path = pre ++ c :: q) {n : Node}
    (hpre : fs.node (pre.reverse ++ start fs (absolute path)) = some n)
    (hc : fs.node (c :: (pre.reverse ++ start fs (absolute path))) = none) :
    MkdirAgrees (createDirectories .done fs path) fs
      (makePath fs (start fs (absolute path)) (components path)) := by
  rw [hnames] at hplain hlen
  have hmiss : ∀ q₁, q₁ <+: q → (lookupIn fs (absolute path) (pre ++ c :: q₁)).isFound = false :=
    fun q₁ hq₁ => by
      have hsub : pre ++ c :: q₁ <+: pre ++ c :: q :=
        (List.prefix_append_right_inj pre).2 ((List.prefix_cons_inj c).2 hq₁)
      rw [lookupIn_of_dir hs]
      exact walk_ne_found (fun x hx => hplain x (hsub.subset hx))
        (by simpa using h.none_append hc q₁.reverse) hs
  have hr : (resolve fs path).isFound = false :=
    resolve_isFound hp (by rw [hnames]; exact hmiss q (List.prefix_refl q))
  have hlen' : (prefixesFrom (pre ++ [c]) q).length < 1000 := by
    rw [length_prefixesFrom]; simp at hlen; omega
  rw [createDirectories_climb hp hr, hnames, climb_missing pre c q []
    (fun x hx => hplain x (by simp [hx])) (by simp at hlen ⊢; omega)
    (fun q₁ x hx => hmiss q₁ ((List.prefix_append q₁ [x]).trans hx)), List.append_nil]
  by_cases hnd : n = .dir
  · subst hnd
    have hpre' := lookupIn_of_node h hs (fun x hx => hplain x (by simp [hx])) hpre
    obtain ⟨v, fs', hm, hmk⟩ := makeDirs_fresh q pre c fs 0 false h hs hplain hpre hc
    rw [makePath_append h hs pre _ (fun x hx => hplain x (by simp [hx])) hpre, hm,
      climb_last pre (hplain c (by simp)) _ hlen' (.inr ⟨_, hpre'⟩)]
    exact ⟨v, hmk⟩
  · obtain ⟨pre', y, rfl⟩ := exists_concat_of_ne_dir hs hpre hnd
    have hy : fs.node (y :: (pre'.reverse ++ start fs (absolute path))) = some n := by simpa using hpre
    rw [show pre' ++ [y] ++ c :: q = pre' ++ y :: c :: q by simp,
      makePath_of_ne_dir h hs pre' y (c :: q) (fun x hx => hplain x (List.mem_append_left _ hx)) hy hnd,
      climb_last_notdir (hplain c (by simp)) _ hlen' (by simp)
        (lookupIn_of_node h hs (fun x hx => hplain x (List.mem_append_left _ hx)) hpre) hnd]
    exact ⟨_, rfl⟩

theorem createDirectories_no_start {path : Bytes} (hp : path ≠ [])
    (hs : fs.node (start fs (absolute path)) ≠ some .dir)
    (hplain : ∀ x ∈ components path, x ≠ dot ∧ x ≠ dotdot) (hlen : (components path).length ≤ 1000) :
    MkdirAgrees (createDirectories .done fs path) fs
      (makePath fs (start fs (absolute path)) (components path)) := by
  have hlk := lookupIn_of_not_dir hs
  rw [createDirectories_climb hp (resolve_isFound hp (by rw [hlk]; rfl))]
  cases hn : components path with
  | nil => exact ⟨false, rfl⟩
  | cons c q =>
      rw [hn] at hplain hlen
      rw [show (c :: q).reverse = ([] ++ c :: q).reverse from rfl, climb_missing [] c q []
        (fun x hx => hplain x (by simp [hx])) (by simp at hlen ⊢; omega) (fun _ _ _ => by rw [hlk]; rfl),
        List.append_nil, climb_last [] (hplain c (by simp)) _
          (by rw [length_prefixesFrom]; simp at hlen; omega) (.inl rfl),
        show makePath fs (start fs (absolute path)) (c :: q) = none by simp only [makePath, if_neg hs]]
      exact ⟨_, makeDirs_fails (hlk _) _ _ _⟩

/-- On a tree, with at most 1000 names and none of them `.` or `..`, `create_directories` does
what `mkdir -p` does: it leaves the file system `makePath` gives, or fails and changes nothing. -/
theorem createDirectories_done (h : fs.Tree) {path : Bytes} (hp : path ≠ [])
    (hplain : ∀ x ∈ components path, x ≠ dot ∧ x ≠ dotdot) (hlen : (components path).length ≤ 1000) :
    MkdirAgrees (createDirectories .done fs path) fs
      (makePath fs (start fs (absolute path)) (components path)) := by
  by_cases hs : fs.node (start fs (absolute path)) = some .dir
  · obtain ⟨pre, post, n, hnames, hpre, hpost⟩ := exists_split h (components path) hs
    cases post with
    | nil => exact createDirectories_existing h hp hs hplain (by rw [hnames, List.append_nil]; exact hpre)
    | cons c q => exact createDirectories_missing h hp hs hplain hlen hnames hpre (hpost c q rfl)
  · exact createDirectories_no_start hp hs hplain hlen

end Mkdir

theorem Clean.set {fs : Fs} (h : Clean fs) (l : Loc) {n : Option Node}
    (hn : ∀ content, n = some (.file content) → (0 : UInt8) ∉ content ∧ looksLikeError content = false) :
    Clean (fs.set l n) := fun q content hq => by
  rcases q with _ | ⟨c, up⟩
  · cases hq
  by_cases hql : c :: up = l
  · subst hql
    exact hn content (by rwa [Fs.set_node_self _ (List.cons_ne_nil _ _)] at hq)
  · exact h _ content (by rwa [Fs.set_node_of_ne _ _ hql] at hq)

theorem Clean.grows {fs fs' : Fs} (h : Clean fs) (hg : fs.Grows fs') : Clean fs' := fun l content hl => by
  by_cases hch : fs'.node l = fs.node l
  · exact h l content (hch ▸ hl)
  · cases hl.symm.trans (hg l hch).2

theorem step_clean {fs : Fs} (h : Clean fs) {r : Request} (hr : r.Clean) : Clean (step fs r).2 := by
  cases r with
  | readFile path => simp only [step]; split <;> exact h
  | writeFile path content =>
      simp only [step]
      split
      · rename_i target _
        cases target with
        | none => exact h
        | some l => exact h.set l fun c hc => by cases hc; exact ⟨content.no_nul, hr⟩
      · exact h
  | pathExists path => exact h
  | mkdir path =>
      simp only [step]
      split_ifs
      · exact h
      split
      · exact h.grows (makePath_grows _ ‹_›)
      · exact h
  | remove path =>
      simp only [step]
      split
      · split_ifs
        · exact h
        · exact h.set _ nofun
      all_goals exact h

theorem call_tree (env : Env) (r : Request) {w : World} (h : w.fs.Tree) : (r.call env w).2.fs.Tree := by
  cases r with
  | readFile path => rwa [Request.call, nativeReadFile_fs]
  | writeFile path content =>
      rw [Request.call, nativeWriteFile_fs, if_pos rfl]
      exact Ops.writeFile_tree h _ _ _
  | pathExists path => rwa [Request.call, nativeExists_fs]
  | mkdir path =>
      rw [Request.call, nativeMkdir_fs, if_pos rfl]
      exact (Ops.mkdir_grows _ _ _).2 h
  | remove path =>
      rw [Request.call, nativeRemove_fs, if_pos rfl]
      exact Ops.remove_tree h _ _

/-- The step lemma: in a fault-free OS, one native call of the fs module on a tree answers as
the store does and leaves the file system the store would leave, as long as no file holds a
text that looks like an error. -/
theorem call_refines {env : Env} (henv : FaultFree env) {r : Request} (hr : r.Clean) (w : World)
    (hw : Clean w.fs) (ht : w.fs.Tree) :
    (Reply.ofOutcome (r.call env w).1, (r.call env w).2.fs) = step w.fs r := by
  obtain ⟨hrd, hwr, hpr, hmk, hrm⟩ := henv
  cases r with
  | readFile path =>
      simp only [Request.call, nativeReadFile_one, List.getD_cons_zero, fromRaya_string, step,
        Ops.readFile, ifstreamDrain, hrd, World.note_fs]
      rcases hn : resolve w.fs path.bytes with ⟨l, content | _ | _⟩ | l | e
      · obtain ⟨hz, hl⟩ := hw _ _ (resolve_found hn)
        simp [hl, toRaya, rayaValueFromString, Reply.ofOutcome, cstrOf_of_not_mem hz]
      · simp [underflowWhat, looksLikeError, lit, error, rayaErrorNew, Reply.ofOutcome]
      · simp [looksLikeError, lit, toRaya, rayaValueFromString, Reply.ofOutcome, cstrOf]
      · simp [looksLikeError, lit, error, rayaErrorNew, Reply.ofOutcome]
      · simp [looksLikeError, lit, error, rayaErrorNew, Reply.ofOutcome]
  | writeFile path content =>
      simp only [Request.call, nativeWriteFile_two, List.getD_cons_zero, List.getD_cons_succ,
        fromRaya_string, step, Ops.writeFile, ofstream, hwr]
      rcases openWrite w.fs path.bytes with _ | target <;>
        simp [error, rayaErrorNew, rayaValueNull, Reply.ofOutcome]
  | pathExists path =>
      simp [Request.call, nativeExists_one, step, Ops.pathExists, fsExists, hpr, boolToRaya,
        rayaValueFromBool, Reply.ofOutcome]
  | mkdir path =>
      simp only [Request.call, nativeMkdir_one, List.getD_cons_zero, fromRaya_string, step,
        Ops.mkdir, hmk]
      by_cases hp : path.bytes = []
      · simp [hp, createDirectories, error, rayaErrorNew, Reply.ofOutcome]
      · have hcd := createDirectories_done ht hp hr.1 hr.2
        rw [if_neg hp]
        revert hcd
        cases makePath w.fs (start w.fs (absolute path.bytes)) (components path.bytes) with
        | none =>
            rintro ⟨message, hm⟩
            simp [hm, MkdirAgrees, error, rayaErrorNew, Reply.ofOutcome]
        | some fs' =>
            rintro ⟨v, hv⟩
            simp [hv, MkdirAgrees, rayaValueNull, Reply.ofOutcome]
  | remove path =>
      simp only [Request.call, nativeRemove_one, List.getD_cons_zero, fromRaya_string, step,
        Ops.remove, Os.remove, hrm]
      rcases resolve w.fs path.bytes with ⟨l, _ | _ | _⟩ | l | e
      · simp [boolToRaya, rayaValueFromBool, Reply.ofOutcome]
      · cases he : rmdirError w.fs path.bytes l <;>
          simp [he, boolToRaya, rayaValueFromBool, error, rayaErrorNew, Reply.ofOutcome]
      · simp [boolToRaya, rayaValueFromBool, Reply.ofOutcome]
      · simp [boolToRaya, rayaValueFromBool, Reply.ofOutcome]
      · cases e <;> simp [boolToRaya, rayaValueFromBool, error, rayaErrorNew, Reply.ofOutcome]

theorem Fs.tmp_clean : Clean Fs.tmp := fun l content h => by
  rcases l with _ | ⟨c, up⟩
  · cases h
  · rw [Fs.node_cons, Fs.tmp] at h
    by_cases hl : c :: up = [lit "tmp"]
    · rw [hl, AList.lookup_insert] at h
      cases h
    · rw [AList.lookup_insert_ne hl, AList.lookup_empty] at h
      cases h

example :
    (run Fs.tmp
      [.mkdir ⟨lit "/tmp/vx/p/q", by decide⟩, .pathExists ⟨lit "/tmp/vx/p", by decide⟩,
        .remove ⟨lit "/tmp/vx", by decide⟩, .readFile ⟨lit "/tmp/vx", by decide⟩]).1 =
      [.done, .flag true, .failed, .failed] := by decide

end RayaFfi.Fs.Store
