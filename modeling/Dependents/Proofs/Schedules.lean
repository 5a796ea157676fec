import Dependents.Proofs.CacheSlots
import Mathlib.Data.List.Pairwise

/-! Files analysed at the same time on one cache. In whatever order the look-ups and stores of
different files come, each file goes the way it would go alone. -/
namespace Dependents

open SyntaxCache Analysis Session

/-- How far the analysis of a file has come. -/
inductive Task where
  | waiting
  /-- The text was read and its syntax was not in the cache. -/
  | missed (text : String)
  | finished (edges : List (Path × Edge))

namespace Task

def looked (policy : ResolutionPolicy) (path : Path) (text : String) (files : FileSystem) :
    Option FileSyntax → Task
  | some found => .finished (edgesOfSyntax files policy path found)
  | none => .missed text

def lookUp (policy : ResolutionPolicy) (path : Path) (s : Session) : Task × Session :=
  match Source.read s.files path with
  | .error _ => (.finished [], s)
  | .ok text =>
    let (found, s) := s.lookup path text
    (looked policy path text s.files found, s)

/-- Where parsing a text leads. Its syntax is kept. -/
def parsed (policy : ResolutionPolicy) (path : Path) (s : Session) (text : String) :
    Except AnalysisError FileSyntax → Task × Session
  | .error _ => (.finished [], s)
  | .ok syntaxOf =>
    let s := s.keep path text syntaxOf
    (.finished (edgesOfSyntax s.files policy path syntaxOf), s)

def step (grammar : Grammar) (policy : ResolutionPolicy) (path : Path) (s : Session) :
    Task → Task × Session
  | .waiting => lookUp policy path s
  | .missed text => parsed policy path s text (Source.fileSyntax grammar path text)
  | .finished edges => (.finished edges, s)

def edges : Task → List (Path × Edge)
  | .finished edges => edges
  | _ => []

@[simp] theorem edges_finished (edges : List (Path × Edge)) : (finished edges).edges = edges :=
  rfl

end Task

/-- Files under analysis, and the session they share. -/
structure Pool where
  session : Session
  tasks : List (Path × Task)

namespace Pool

def start (s : Session) (paths : List Path) : Pool :=
  ⟨s, paths.map (·, .waiting)⟩

/-- The file whose turn it is takes its next step. -/
def step (grammar : Grammar) (policy : ResolutionPolicy) (pool : Pool) (turn : Nat) : Pool :=
  match pool.tasks[turn]? with
  | none => pool
  | some (path, task) =>
    let (task, session) := task.step grammar policy path pool.session
    ⟨session, pool.tasks.set turn (path, task)⟩

/-- Files take steps in the order of their turns. -/
def run (grammar : Grammar) (policy : ResolutionPolicy) (pool : Pool) (turns : List Nat) : Pool :=
  turns.foldl (step grammar policy) pool

def edges (pool : Pool) : List (Path × Edge) :=
  pool.tasks.flatMap (·.2.edges)

end Pool

variable {grammar : Grammar} {policy : ResolutionPolicy} {start s s' : Session} {path : Path}
  {paths scanned : List Path} {task : Task}

namespace Task

theorem step_unread {e : AnalysisError} (h : Source.read s.files path = .error e) :
    Task.waiting.step grammar policy path s = (.finished [], s) := by
  rw [step, lookUp, h]

theorem step_read {text : String} (h : Source.read s.files path = .ok text) :
    Task.waiting.step grammar policy path s =
      (looked policy path text s.files (s.lookup path text).1, (s.lookup path text).2) := by
  rw [step, lookUp, h, ← files_lookup s path text]

theorem step_unparsed {text : String} {e : AnalysisError}
    (h : Source.fileSyntax grammar path text = .error e) :
    (Task.missed text).step grammar policy path s = (.finished [], s) := by
  rw [step, h, parsed]

theorem step_parsed {text : String} {syntaxOf : FileSyntax}
    (h : Source.fileSyntax grammar path text = .ok syntaxOf) :
    (Task.missed text).step grammar policy path s =
      (.finished (edgesOfSyntax (s.keep path text syntaxOf).files policy path syntaxOf),
        s.keep path text syntaxOf) := by
  rw [step, h, parsed]

/-- A step touches no slot but that of its file. -/
theorem step_follows (grammar : Grammar) (policy : ResolutionPolicy)
    (hlen : paths.length ≤ capacity) (h : Follows start paths scanned s)
    (hpath : path ∈ scanned) (task : Task) :
    Follows start paths scanned (task.step grammar policy path s).2 ∧
      Frame path s (task.step grammar policy path s).2 := by
  cases task with
  | waiting =>
    cases hread : Source.read s.files path with
    | error e =>
      rw [step_unread hread]
      exact ⟨h, .refl path s⟩
    | ok text =>
      rw [step_read hread]
      exact ⟨h.lookup hpath text, lookup_frame s path text⟩
  | missed text =>
    cases hparse : Source.fileSyntax grammar path text with
    | error e =>
      rw [step_unparsed hparse]
      exact ⟨h, .refl path s⟩
    | ok parsed =>
      rw [step_parsed hparse]
      exact ⟨h.keep hlen hpath text parsed, keep_frame (h.hasRoom hlen hpath) h.unlinked text parsed⟩
  | finished edges => exact ⟨h, .refl path s⟩

/-- A step depends on no slot but that of its file. -/
theorem step_congr (grammar : Grammar) (policy : ResolutionPolicy)
    (hlen : paths.length ≤ capacity) (h : Follows start paths scanned s)
    (h' : Follows start paths scanned s') (hpath : path ∈ scanned) (hnamed : SourceNamed path)
    (hslot : SameSlot path s s') (task : Task) :
    (task.step grammar policy path s').1 = (task.step grammar policy path s).1 ∧
      SameSlot path (task.step grammar policy path s).2 (task.step grammar policy path s').2 := by
  have hedges : ∀ {r r' : Session}, Follows start paths scanned r → Follows start paths scanned r' →
      ∀ syntaxOf, edgesOfSyntax r'.files policy path syntaxOf =
        edgesOfSyntax r.files policy path syntaxOf := by
    intro r r' hr hr' syntaxOf
    rw [edgesOfSyntax_same hr'.sources, edgesOfSyntax_same hr.sources]
  cases task with
  | waiting =>
    have hsource : ∀ text, Source.read s'.files path = .ok text ↔ Source.read s.files path = .ok text :=
      fun _ => (sourceRead_same h'.sources hnamed).trans (sourceRead_same h.sources hnamed).symm
    cases hread : Source.read s.files path with
    | error e =>
      cases hread' : Source.read s'.files path with
      | error e' =>
        rw [step_unread hread, step_unread hread']
        exact ⟨rfl, hslot⟩
      | ok text =>
        rw [(hsource text).1 hread'] at hread
        cases hread
    | ok text =>
      rw [step_read hread, step_read ((hsource text).2 hread), lookup_fst, lookup_fst,
        answer_congr hslot]
      refine ⟨?_, lookup_congr hslot (h.hasRoom hlen hpath) (h'.hasRoom hlen hpath) text⟩
      cases s.answer path (Digest.content text) with
      | none => rfl
      | some found => exact congrArg Task.finished (hedges h h' found)
  | missed text =>
    cases hparse : Source.fileSyntax grammar path text with
    | error e =>
      rw [step_unparsed hparse, step_unparsed hparse]
      exact ⟨rfl, hslot⟩
    | ok parsed =>
      rw [step_parsed hparse, step_parsed hparse]
      refine ⟨congrArg Task.finished (hedges (h.keep hlen hpath text parsed)
        (h'.keep hlen hpath text parsed) parsed), ?_⟩
      exact keep_congr hslot (h.hasRoom hlen hpath) (h'.hasRoom hlen hpath) h.unlinked h'.unlinked text
        parsed
  | finished edges => exact ⟨rfl, hslot⟩

/-- A file analysed alone: what it has come to after some steps, and the session it leaves. -/
def alone (grammar : Grammar) (policy : ResolutionPolicy) (start : Session) (path : Path) :
    Nat → Task × Session
  | 0 => (.waiting, start)
  | n + 1 => (alone grammar policy start path n).1.step grammar policy path
      (alone grammar policy start path n).2

theorem follows_alone (grammar : Grammar) (policy : ResolutionPolicy)
    (hlen : paths.length ≤ capacity) (h : Follows start paths scanned start) (hpath : path ∈ scanned)
    (n : Nat) :
    Follows start paths scanned (alone grammar policy start path n).2 := by
  induction n with
  | zero => exact h
  | succ n ih => exact (step_follows grammar policy hlen ih hpath _).1

/-- Alone, a file is analysed as it is in a build. -/
theorem alone_two (grammar : Grammar) (policy : ResolutionPolicy) (s : Session) (path : Path) :
    alone grammar policy s path 2 =
      (.finished (file grammar policy s path).1, (file grammar policy s path).2) := by
  unfold alone alone alone file syntaxOfFile
  cases hread : Source.read s.files path with
  | error e =>
    rw [step_unread hread]
    rfl
  | ok text =>
    rw [step_read hread]
    have hfiles := files_lookup s path text
    simp only [syntaxOfText]
    generalize s.lookup path text = result at hfiles ⊢
    obtain ⟨found, s'⟩ := result
    cases found with
    | some found =>
      simp only [looked, step]
      rw [← hfiles]
    | none =>
      cases hparse : Source.fileSyntax grammar path text with
      | error e =>
        simp only [looked, step_unparsed hparse]
      | ok parsed =>
        simp only [looked, step_parsed hparse]

theorem alone_of_two_le {n : Nat} (h : 2 ≤ n) :
    alone grammar policy start path n = alone grammar policy start path 2 := by
  induction n, h using Nat.le_induction with
  | base => rfl
  | succ n _ ih =>
    rw [alone, ih, alone_two, step]

end Task

namespace Pool

/-- Files that one cache can serve at the same time: there is room for the entries of all, and each
has an entry file of its own. -/
structure Served (start : Session) (paths scanned : List Path) : Prop where
  room : paths.length ≤ capacity
  follows : Follows start paths scanned start
  named : ∀ path ∈ scanned, SourceNamed path
  distinct : scanned.Pairwise fun p q => p.components ≠ q.components ∧ fileName p ≠ fileName q

/-- Every file has come as far as it would have alone, in as many steps, and its slot is in the same
state. All other slots are as at the start. -/
structure Tracks (grammar : Grammar) (policy : ResolutionPolicy) (start : Session)
    (paths scanned : List Path) (count : Nat → Nat) (pool : Pool) : Prop where
  follows : Follows start paths scanned pool.session
  length : pool.tasks.length = scanned.length
  task : ∀ i path, scanned[i]? = some path →
    pool.tasks[i]? = some (path, (Task.alone grammar policy start path (count i)).1) ∧
      SameSlot path (Task.alone grammar policy start path (count i)).2 pool.session
  memory : ∀ key, (∀ path ∈ scanned, path.components ≠ key) →
    pool.session.memoryAt key = start.memoryAt key
  entry : ∀ other, (∀ path ∈ scanned, fileName other ≠ fileName path) →
    pool.session.entryAt other = start.entryAt other

variable {count count' : Nat → Nat} {pool pool' : Pool}

theorem tracks_start (h : Follows start paths scanned start) (grammar : Grammar)
    (policy : ResolutionPolicy) : 
      Tracks grammar policy start paths scanned (fun _ => 0) (.start start scanned) where
  follows := h
  length := by simp [Pool.start]
  task i path hi := ⟨by simp [Pool.start, hi, Task.alone], rfl, rfl, rfl⟩
  memory _ _ := rfl
  entry _ _ := rfl

theorem Served.ne {i j : Nat} {path other : Path} (h : Served start paths scanned)
    (hi : scanned[i]? = some path) (hj : scanned[j]? = some other) (hij : i ≠ j) :
    path.components ≠ other.components ∧ fileName path ≠ fileName other := by
  obtain ⟨hilt, rfl⟩ := List.getElem?_eq_some_iff.1 hi
  obtain ⟨hjlt, rfl⟩ := List.getElem?_eq_some_iff.1 hj
  rcases Nat.lt_or_gt_of_ne hij with hlt | hlt
  · exact List.pairwise_iff_getElem.1 h.distinct i j hilt hjlt hlt
  · have hne := List.pairwise_iff_getElem.1 h.distinct j i hjlt hilt hlt
    exact ⟨hne.1.symm, hne.2.symm⟩

theorem step_of_none {turn : Nat} (h : pool.tasks[turn]? = none) :
    pool.step grammar policy turn = pool := by
  rw [step, h]

theorem step_of_some {turn : Nat} (h : pool.tasks[turn]? = some (path, task)) :
    pool.step grammar policy turn = ⟨(task.step grammar policy path pool.session).2,
      pool.tasks.set turn (path, (task.step grammar policy path pool.session).1)⟩ := by
  rw [step, h]

/-- One turn takes its file one step further and leaves all others where they are. -/
theorem tracks_step (hserved : Served start paths scanned)
    (h : Tracks grammar policy start paths scanned count pool) (turn : Nat) :
    Tracks grammar policy start paths scanned (fun i => count i + if turn = i then 1 else 0)
      (pool.step grammar policy turn) := by
  cases hturn : scanned[turn]? with
  | none =>
    have hnone : pool.tasks[turn]? = none := by
      rw [List.getElem?_eq_none_iff] at hturn ⊢
      rw [h.length]
      exact hturn
    rw [step_of_none hnone]
    refine { h with task := fun i path hi => ?_ }
    have hne : turn ≠ i := by
      rintro rfl
      rw [hturn] at hi
      cases hi
    simpa [hne] using h.task i path hi
  | some path =>
    have hmem := List.mem_of_getElem? hturn
    obtain ⟨htask, hslot⟩ := h.task turn path hturn
    rw [step_of_some htask]
    have halone := Task.follows_alone grammar policy hserved.room hserved.follows hmem (count turn)
    obtain ⟨hfollows, hframe⟩ := Task.step_follows grammar policy hserved.room h.follows hmem
      (Task.alone grammar policy start path (count turn)).1
    obtain ⟨hsame, hafter⟩ := Task.step_congr grammar policy hserved.room halone h.follows hmem
      (hserved.named path hmem) hslot (Task.alone grammar policy start path (count turn)).1
    refine ⟨hfollows, by simp [h.length], fun i other hi => ?_, fun key hkey => ?_,
      fun other hother => ?_⟩
    -- The slot of the file goes as it would alone; all others are outside the frame of the step.
    · by_cases hne : turn = i
      · subst hne
        cases hturn.symm.trans hi
        rw [if_pos rfl, List.getElem?_set_self (List.getElem?_eq_some_iff.1 htask).1, hsame]
        exact ⟨rfl, hafter⟩
      · obtain ⟨hother, hslot⟩ := h.task i other hi
        obtain ⟨hkey, hname⟩ := hserved.ne hturn hi hne
        rw [if_neg hne, List.getElem?_set_ne hne]
        exact ⟨hother, hslot.frame hframe hkey hname.symm⟩
    · exact (hframe.memory key (hkey path hmem)).trans (h.memory key hkey)
    · exact (hframe.entry other (hother path hmem)).trans (h.entry other hother)

/-- After some turns, every file has taken as many steps as it had turns. -/
theorem tracks_run (hserved : Served start paths scanned)
    (h : Tracks grammar policy start paths scanned count pool) (turns : List Nat) :
    Tracks grammar policy start paths scanned (fun i => count i + turns.count i)
      (pool.run grammar policy turns) := by
  induction turns generalizing count pool with
  | nil => exact h
  | cons turn turns ih =>
    have hrest := ih (tracks_step hserved h turn)
    have hcount : (fun i => (count i + if turn = i then 1 else 0) + turns.count i) =
        fun i => count i + (turn :: turns).count i := by
      funext i
      rw [List.count_cons, Nat.add_right_comm, Nat.add_assoc]
      simp
    rwa [hcount] at hrest

/-- Once all files have had two turns, it no longer shows how the turns came. -/
theorem Tracks.eq_tasks (h : Tracks grammar policy start paths scanned count pool)
    (h' : Tracks grammar policy start paths scanned count' pool')
    (hcount : ∀ i < scanned.length, 2 ≤ count i) (hcount' : ∀ i < scanned.length, 2 ≤ count' i) :
    pool'.tasks = pool.tasks := by
  apply List.ext_getElem?
  intro i
  cases hi : scanned[i]? with
  | none =>
    rw [List.getElem?_eq_none_iff] at hi
    rw [List.getElem?_eq_none (h.length.trans_le hi), List.getElem?_eq_none (h'.length.trans_le hi)]
  | some path =>
    have hlt := (List.getElem?_eq_some_iff.1 hi).1
    rw [(h.task i path hi).1, (h'.task i path hi).1, Task.alone_of_two_le (hcount i hlt),
      Task.alone_of_two_le (hcount' i hlt)]

theorem Tracks.sameSlot (h : Tracks grammar policy start paths scanned count pool)
    (h' : Tracks grammar policy start paths scanned count' pool')
    (hcount : ∀ i < scanned.length, 2 ≤ count i) (hcount' : ∀ i < scanned.length, 2 ≤ count' i)
    (path : Path) : SameSlot path pool.session pool'.session := by
  have hscanned : ∀ p ∈ scanned, SameSlot p pool.session pool'.session := by
    intro p hp
    obtain ⟨i, hlt, rfl⟩ := List.getElem_of_mem hp
    have hslot := (h.task i scanned[i] (List.getElem?_eq_getElem hlt)).2
    have hslot' := (h'.task i scanned[i] (List.getElem?_eq_getElem hlt)).2
    rw [Task.alone_of_two_le (hcount i hlt)] at hslot
    rw [Task.alone_of_two_le (hcount' i hlt)] at hslot'
    exact hslot.symm.trans hslot'
  refine ⟨h'.follows.backing.trans h.follows.backing.symm, ?_, ?_⟩
  · by_cases hkey : ∃ p ∈ scanned, p.components = path.components
    · obtain ⟨p, hp, hkey⟩ := hkey
      exact hkey ▸ (hscanned p hp).memory
    · have hnot : ∀ p ∈ scanned, p.components ≠ path.components := fun p hp heq => hkey ⟨p, hp, heq⟩
      rw [h.memory _ hnot, h'.memory _ hnot]
  · by_cases hname : ∃ p ∈ scanned, fileName path = fileName p
    · obtain ⟨p, hp, hname⟩ := hname
      rw [entryAt_of_fileName hname, entryAt_of_fileName hname]
      exact (hscanned p hp).entry
    · have hnot : ∀ p ∈ scanned, fileName path ≠ fileName p := fun p hp heq => hname ⟨p, hp, heq⟩
      rw [h.entry _ hnot, h'.entry _ hnot]

/-- The turns of files that go one after another, from the one at `first` on. -/
def inOrder (first : Nat) : Nat → List Nat
  | 0 => []
  | n + 1 => first :: first :: inOrder (first + 1) n

theorem two_le_count_inOrder {first n i : Nat} (hle : first ≤ i) (hlt : i < first + n) :
    2 ≤ (inOrder first n).count i := by
  induction n generalizing first with
  | zero => omega
  | succ n ih =>
    rw [inOrder, List.count_cons, List.count_cons]
    rcases Nat.eq_or_lt_of_le hle with rfl | hle
    · simp
    · have hrest := ih (Nat.succ_le_of_lt hle) (by omega)
      simp only [Nat.succ_eq_add_one] at hrest
      omega

/-- A file that takes both its steps at once is analysed as in a build. -/
theorem step_step {tasks : List (Path × Task)} {turn : Nat}
    (h : tasks[turn]? = some (path, .waiting)) (s : Session) :
    ((⟨s, tasks⟩ : Pool).step grammar policy turn).step grammar policy turn =
      ⟨(file grammar policy s path).2,
        tasks.set turn (path, .finished (file grammar policy s path).1)⟩ := by
  have htwo := Task.alone_two grammar policy s path
  simp only [Task.alone] at htwo
  have hlt := (List.getElem?_eq_some_iff.1 h).1
  have hone : (⟨s, tasks⟩ : Pool).step grammar policy turn = _ := step_of_some h
  rw [hone, step_of_some (List.getElem?_set_self hlt), htwo, List.set_set]

theorem run_inOrder (grammar : Grammar) (policy : ResolutionPolicy) (s : Session)
    (done : List (Path × Task)) (rest : List Path) :
    let pool : Pool := ⟨s, done ++ rest.map (·, .waiting)⟩
    let after := pool.run grammar policy (inOrder done.length rest.length)
    after.session = (fileList grammar policy s rest).2 ∧
      after.edges = done.flatMap (·.2.edges) ++ (fileList grammar policy s rest).1 := by
  induction rest generalizing s done with
  | nil => simp [run, inOrder, fileList, edges]
  | cons path rest ih =>
    have hnext : (done ++ (path :: rest).map (·, Task.waiting))[done.length]? =
        some (path, .waiting) := by simp
    have hset : ∀ task, (done ++ (path :: rest).map (·, Task.waiting)).set done.length (path, task) =
        (done ++ [(path, task)]) ++ rest.map (·, .waiting) := by simp
    have hrest := ih (file grammar policy s path).2
      (done ++ [(path, .finished (file grammar policy s path).1)])
    simp only [run, List.length_cons, inOrder, List.foldl_cons, step_step hnext, hset]
    simpa [run, fileList] using hrest

theorem Tracks.finished (h : Tracks grammar policy start paths scanned count pool)
    (hcount : ∀ i < scanned.length, 2 ≤ count i) :
    ∀ task ∈ pool.tasks, ∃ edges, task.2 = .finished edges := by
  intro task htask
  obtain ⟨i, hlt, rfl⟩ := List.getElem_of_mem htask
  rw [h.length] at hlt
  have hi := (h.task i scanned[i] (List.getElem?_eq_getElem hlt)).1
  rw [Task.alone_of_two_le (hcount i hlt), Task.alone_two] at hi
  obtain ⟨_, heq⟩ := List.getElem?_eq_some_iff.1 hi
  exact ⟨_, congrArg Prod.snd heq⟩

/-- However the turns come, the files end as if they had gone one after another. -/
theorem run_eq_fileList (hserved : Served start paths scanned) (turns : List Nat)
    (hturns : ∀ i < scanned.length, 2 ≤ turns.count i) :
    let pool := (Pool.start start scanned).run grammar policy turns
    (∀ task ∈ pool.tasks, ∃ edges, task.2 = .finished edges) ∧
      pool.edges = (fileList grammar policy start scanned).1 ∧
      ∀ path, SameSlot path (fileList grammar policy start scanned).2 pool.session := by
  intro pool
  have hstart := tracks_start hserved.follows grammar policy
  have hany : Tracks grammar policy start paths scanned _ pool := tracks_run hserved hstart turns
  have hordered := tracks_run hserved hstart (inOrder 0 scanned.length)
  have hcount : ∀ i < scanned.length, 2 ≤ 0 + turns.count i := fun i hi => by
    rw [Nat.zero_add]
    exact hturns i hi
  have hcount' : ∀ i < scanned.length, 2 ≤ 0 + (inOrder 0 scanned.length).count i := fun i hi => by
    rw [Nat.zero_add]
    exact two_le_count_inOrder (Nat.zero_le i) (by omega)
  obtain ⟨hsession, hedges⟩ := run_inOrder grammar policy start [] scanned
  refine ⟨hany.finished hcount, ?_, fun path => ?_⟩
  · rw [edges, hordered.eq_tasks hany hcount' hcount]
    exact hedges
  · rw [← hsession]
    exact hordered.sameSlot hany hcount' hcount path

/-- What a scan finds, one cache can serve, if it has room for all and no two share an entry file. -/
theorem served_roots {config : Config} {roots : List Path}
    (hlinks : ∀ cache dir, s.cache = some cache → cache.dir = some dir →
      LinksApart { path | path ∈ (Scan.roots s.files config roots).map (·.path) } s.files dir)
    (hcovered : ∀ cache, s.cache = some cache → Covered paths cache)
    (hroom : paths.length ≤ capacity)
    (hpaths : ∀ found ∈ Scan.roots s.files config roots, found.path ∈ paths)
    (hnames : ∀ p ∈ Scan.roots s.files config roots, ∀ q ∈ Scan.roots s.files config roots,
      fileName p.path = fileName q.path → p.path.same q.path) :
    Served s paths ((Scan.roots s.files config roots).map (·.path)) where
  room := hroom
  follows := ⟨List.forall_mem_map.2 hpaths, rfl, .refl _, hlinks, hcovered⟩
  named := List.forall_mem_map.2 fun _ hfound =>
    sourceNamed_of_language (Scan.language_of_mem_roots hfound)
  distinct := by
    rw [List.pairwise_map]
    refine (Path.pairwise_firstOfEach SourceFile.path [] _).imp_of_mem fun {p q} hp hq hpq => ?_
    have hne : q.path.components ≠ p.path.components := by simpa [Path.same] using hpq
    refine ⟨hne.symm, fun hname => hne ?_⟩
    exact (beq_iff_eq.1 (hnames p hp q hq hname)).symm

/-- However the steps of the files come, if all are done the build gives the index that it gives when
the files go one after another, and the cache then answers every look-up the same. -/
theorem run_eq_analyze (grammar : Grammar) (config : Config) (s : Session) (roots paths : List Path)
    (hlinks : ∀ cache dir, s.cache = some cache → cache.dir = some dir →
      LinksApart { path | path ∈ (Scan.roots s.files config roots).map (·.path) } s.files dir)
    (hcovered : ∀ cache, s.cache = some cache → Covered paths cache)
    (hroom : paths.length ≤ capacity)
    (hpaths : ∀ found ∈ Scan.roots s.files config roots, found.path ∈ paths)
    (hnames : ∀ p ∈ Scan.roots s.files config roots, ∀ q ∈ Scan.roots s.files config roots,
      fileName p.path = fileName q.path → p.path.same q.path)
    (turns : List Nat)
    (hturns : ∀ i < (Scan.roots s.files config roots).length, 2 ≤ turns.count i) :
    let pool := (Pool.start s ((Scan.roots s.files config roots).map (·.path))).run grammar
      config.resolution turns
    (∀ task ∈ pool.tasks, ∃ edges, task.2 = .finished edges) ∧
      DependencyIndex.empty.extend pool.edges = (analyze grammar config s roots).1 ∧
      ∀ path contentHash, pool.session.answer path contentHash =
        (analyze grammar config s roots).2.answer path contentHash := by
  intro pool
  have hserved := served_roots hlinks hcovered hroom hpaths hnames
  obtain ⟨hfinished, hedges, hslots⟩ := run_eq_fileList hserved turns (by simpa using hturns)
  exact ⟨hfinished, congrArg DependencyIndex.empty.extend hedges,
    fun path contentHash => answer_congr (hslots path) contentHash⟩

/-- The two callers, with entries in the directory. -/
def callersWith (entries : List (String × FileNode)) : FileSystem :=
  withEntries entries [("a.ts", .file (Text.bytesOf callsText.toList)),
    ("b.ts", .file (Text.bytesOf callsText.toList)), ("m.ts", .file [])]

theorem file_callersWith {entries : List (String × FileNode)} {cache : SyntaxCache}
    (hpath : path = ⟨"/b.ts"⟩ ∨ path = ⟨"/a.ts"⟩) (hplain : FileNode.Plain entries)
    (hdir : cache.dir = some ⟨"/c"⟩) (hroom : cache.HasRoom path)
    (hmem : cache.memory[path.components]?.filter (·.isCurrent (Digest.content callsText)) = none)
    (hnone : (FileNode.dir entries).child? (fileName path) = none) :
    file callsGrammar policy ⟨callersWith entries, some cache⟩ path =
      (callsEdges path,
        ⟨callersWith (FileNode.putEntry (fileName path) (.file callsEntry.encode) entries),
          some (cache.remember path callsEntry)⟩) := by
  have hread : Source.read (callersWith entries) path = .ok callsText := by
    refine sourceRead_eq_ok.2 ⟨_, ?_, decodeLossy_callsText⟩
    rcases hpath with rfl | rfl
    · rw [FileSystem.read, FileSystem.find_top "b.ts" rfl (by decide) rfl]
    · rw [FileSystem.read, FileSystem.find_top "a.ts" rfl (by decide) rfl]
  have hlanguage : Language.ofPath? path = some .typescript := by
    rcases hpath with rfl | rfl <;> decide
  have hfile : (callersWith (FileNode.putEntry (fileName path) (.file callsEntry.encode) entries)).isFile
      ⟨"/m.ts"⟩ = true := by
    rw [FileSystem.isFile, FileSystem.find_top "m.ts" rfl (by decide) rfl]
  rw [callersWith, file_withEntries hplain (by simp) hread (fileSyntax_calls hlanguage) hdir hroom hmem
    hnone]
  exact congrArg (·, _) (edgesOfSyntax_calls hfile (base?_twoCallers hpath))

theorem fileName_ne : fileName ⟨"/a.ts"⟩ ≠ fileName ⟨"/b.ts"⟩ := by
  decide +kernel

/-- A cache that remembers another text of the first of them. -/
def staleCache : SyntaxCache :=
  (blank (some ⟨"/c"⟩)).remember ⟨"/a.ts"⟩ (entryFor 0 ⟨[], []⟩)

theorem covered_staleCache : Covered [⟨"/a.ts"⟩, ⟨"/b.ts"⟩] staleCache :=
  covered_remember (covered_blank _ _ _) ⟨_, List.mem_cons_self, rfl⟩ _

theorem buckets_twoCallers :
    (analyze callsGrammar Config.standard ⟨twoCallers, some staleCache⟩
      [⟨"/a.ts"⟩, ⟨"/b.ts"⟩]).1.buckets = [⟨⟨"/m.ts"⟩,
        [⟨⟨"/a.ts"⟩, ⟨0, 19⟩, "f", none⟩, ⟨⟨"/a.ts"⟩, ⟨0, 23⟩, "f", none⟩,
          ⟨⟨"/b.ts"⟩, ⟨0, 19⟩, "f", none⟩, ⟨⟨"/b.ts"⟩, ⟨0, 23⟩, "f", none⟩]⟩] := by
  have hlen : [Path.mk "/a.ts", ⟨"/b.ts"⟩].length ≤ capacity := by decide
  -- The entry of the first is out of date, and there is none of the second.
  have hstale : staleCache.memory[Path.components ⟨"/a.ts"⟩]?.filter
      (·.isCurrent (Digest.content callsText)) = none := by
    rw [staleCache, getElem?_remember, if_pos rfl]
    decide +kernel
  have hmissing :
      (staleCache.remember ⟨"/a.ts"⟩ callsEntry).memory[Path.components ⟨"/b.ts"⟩]? = none := by
    rw [getElem?_remember, if_neg (by decide), staleCache, getElem?_remember, if_neg (by decide)]
    exact Std.HashMap.getElem?_empty
  have hfirst : file callsGrammar Config.standard.resolution ⟨callersWith [], some staleCache⟩
      ⟨"/a.ts"⟩ = _ :=
    file_callersWith (.inr rfl) FileNode.plain_nil rfl
      (hasRoom_of_covered hlen covered_staleCache (by simp)) hstale rfl
  have hsecond : file callsGrammar Config.standard.resolution
      ⟨callersWith (FileNode.putEntry (fileName ⟨"/a.ts"⟩) (.file callsEntry.encode) []),
        some (staleCache.remember ⟨"/a.ts"⟩ callsEntry)⟩ ⟨"/b.ts"⟩ = _ :=
    file_callersWith (.inl rfl) (FileNode.plain_nil.putEntry _) rfl
      (hasRoom_of_covered hlen (covered_remember covered_staleCache ⟨_, List.mem_cons_self, rfl⟩ _)
        (by simp))
      (by rw [hmissing]; rfl) (by rw [FileNode.child?_putEntry, if_neg fileName_ne.symm]; rfl)
  change (analyze callsGrammar Config.standard ⟨callersWith [], some staleCache⟩ _).1.buckets = _
  have hscan : Scan.roots (callersWith []) Config.standard [⟨"/a.ts"⟩, ⟨"/b.ts"⟩] = _ :=
    roots_twoCallers
  simp only [analyze, hscan, List.map_cons, List.map_nil, fileList, hfirst, hsecond]
  decide +kernel

/-- Two callers take turns; the cache remembers another text of one of them. -/
theorem run_eq_analyze_twoCallers :
    let cache := (blank (some ⟨"/c"⟩)).remember ⟨"/a.ts"⟩ (entryFor 0 ⟨[], []⟩)
    let pool := (Pool.start ⟨twoCallers, some cache⟩ [⟨"/a.ts"⟩, ⟨"/b.ts"⟩]).run callsGrammar
      Config.standard.resolution [0, 1, 1, 0]
    let build := analyze callsGrammar Config.standard ⟨twoCallers, some cache⟩ [⟨"/a.ts"⟩, ⟨"/b.ts"⟩]
    (∀ task ∈ pool.tasks, ∃ edges, task.2 = .finished edges) ∧
      DependencyIndex.empty.extend pool.edges = build.1 ∧
      (∀ path contentHash, pool.session.answer path contentHash = build.2.answer path contentHash) ∧
      build.1.buckets = [⟨⟨"/m.ts"⟩,
        [⟨⟨"/a.ts"⟩, ⟨0, 19⟩, "f", none⟩, ⟨⟨"/a.ts"⟩, ⟨0, 23⟩, "f", none⟩,
          ⟨⟨"/b.ts"⟩, ⟨0, 19⟩, "f", none⟩, ⟨⟨"/b.ts"⟩, ⟨0, 23⟩, "f", none⟩]⟩] := by
  intro cache pool build
  have hlinks : ∀ names target, twoCallers.top.at? names ≠ some (.link target) :=
    no_link_of_flat (by simp [twoCallers, FileNode.plain_nil])
  have hall := run_eq_analyze callsGrammar Config.standard ⟨twoCallers, some cache⟩
    [⟨"/a.ts"⟩, ⟨"/b.ts"⟩] [⟨"/a.ts"⟩, ⟨"/b.ts"⟩]
    (fun _ _ _ _ => linksApart_of_no_link hlinks _ _)
    (fun _ hcache => by cases hcache; exact covered_staleCache) (by decide)
  simp only [roots_twoCallers] at hall
  have hnames : ∀ p ∈ [SourceFile.mk ⟨"/a.ts"⟩ .typescript, ⟨⟨"/b.ts"⟩, .typescript⟩],
      ∀ q ∈ [SourceFile.mk ⟨"/a.ts"⟩ .typescript, ⟨⟨"/b.ts"⟩, .typescript⟩],
        fileName p.path = fileName q.path → p.path.same q.path := by
    intro p hp q hq hname
    rcases List.mem_pair.1 hp with rfl | rfl <;> rcases List.mem_pair.1 hq with rfl | rfl
    · exact beq_self_eq_true _
    · exact absurd hname fileName_ne
    · exact absurd hname.symm fileName_ne
    · exact beq_self_eq_true _
  obtain ⟨hfinished, hindex, hanswer⟩ := hall (by simp) hnames [0, 1, 1, 0] (by decide)
  exact ⟨hfinished, hindex, hanswer, buckets_twoCallers⟩

/-- One file imports from a link to the entry of the other, and there are no entries yet. -/
def linkedSession : Session :=
  ⟨linkedTo ⟨"/b.ts"⟩ [], some (blank (some ⟨"/c"⟩))⟩

theorem hasRoom_remember (path other : Path) (entry : CacheEntry) :
    ((blank (some ⟨"/c"⟩)).remember path entry).HasRoom other := by
  have hcovered : Covered [path, other] ((blank (some ⟨"/c"⟩)).remember path entry) :=
    covered_remember (covered_blank _ _ _) ⟨path, by simp, rfl⟩ entry
  have hlen : [path, other].length ≤ capacity := by simp [capacity]
  exact hasRoom_of_covered hlen hcovered (by simp)

/-- If the other file goes first, the link leads to its entry. -/
theorem file_linkedSession (policy : ResolutionPolicy) :
    let first := file callsGrammar policy linkedSession ⟨"/b.ts"⟩
    first.1 = [] ∧ (file callsGrammar policy first.2 ⟨"/a.ts"⟩).1 = callsEdges ⟨"/a.ts"⟩ := by
  intro first
  have hroom : (blank (some ⟨"/c"⟩)).HasRoom ⟨"/b.ts"⟩ := .inl (by decide)
  have hplain : FileNode.Plain (FileNode.putEntry (fileName ⟨"/b.ts"⟩)
      (.file (entryFor (Digest.content "") ⟨[], []⟩).encode) []) := FileNode.plain_nil.putEntry _
  have hfirst : first = _ :=
    file_linkedTo_empty policy _ FileNode.plain_nil rfl hroom Std.HashMap.getElem?_empty rfl
  rw [hfirst]
  refine ⟨rfl, ?_⟩
  rw [file_linkedTo policy _ hplain rfl (hasRoom_remember _ _ _)]
  · refine edgesOfSyntax_linkedTo _ (hplain.putEntry _) ?_
    rw [FileNode.child?_putEntry, if_neg fileName_ne.symm, FileNode.child?_putEntry, if_pos rfl]
    exact Option.some_ne_none _
  · rw [getElem?_remember, if_neg (by decide)]
    exact Std.HashMap.getElem?_empty
  · rw [FileNode.child?_putEntry, if_neg fileName_ne]
    rfl

/-- If it goes last, the link leads nowhere. -/
theorem fileList_linkedSession :
    (fileList callsGrammar .strict linkedSession [⟨"/a.ts"⟩, ⟨"/b.ts"⟩]).1 = [] := by
  have hroom : (blank (some ⟨"/c"⟩)).HasRoom ⟨"/a.ts"⟩ := .inl (by decide)
  have hplain : FileNode.Plain (FileNode.putEntry (fileName ⟨"/a.ts"⟩) (.file callsEntry.encode) []) :=
    FileNode.plain_nil.putEntry _
  have hother : (FileNode.dir (FileNode.putEntry (fileName ⟨"/a.ts"⟩) (.file callsEntry.encode)
      [])).child? (fileName ⟨"/b.ts"⟩) = none := by
    rw [FileNode.child?_putEntry, if_neg fileName_ne.symm]
    rfl
  have hmem : ((blank (some ⟨"/c"⟩)).remember ⟨"/a.ts"⟩ callsEntry).memory[Path.components ⟨"/b.ts"⟩]? =
      none := by
    rw [getElem?_remember, if_neg (by decide)]
    exact Std.HashMap.getElem?_empty
  have hfirst : file callsGrammar .strict linkedSession ⟨"/a.ts"⟩ = _ :=
    file_linkedTo .strict _ FileNode.plain_nil rfl hroom Std.HashMap.getElem?_empty rfl
  rw [edgesOfSyntax_linkedTo_missing _ hplain hother] at hfirst
  have hsecond := file_linkedTo_empty .strict ⟨"/b.ts"⟩ hplain rfl (hasRoom_remember _ _ _) hmem hother
  simp only [fileList, hfirst, hsecond, List.append_nil]

/-- So it shows in the index which of the two is stored first. -/
theorem run_ne_analyze_linkedTo :
    let pool := (Pool.start linkedSession [⟨"/a.ts"⟩, ⟨"/b.ts"⟩]).run callsGrammar
      Config.standard.resolution [1, 1, 0, 0]
    Scan.roots linkedSession.files Config.standard [⟨"/a.ts"⟩, ⟨"/b.ts"⟩] =
        [⟨⟨"/a.ts"⟩, .typescript⟩, ⟨⟨"/b.ts"⟩, .typescript⟩] ∧
      fileName ⟨"/a.ts"⟩ ≠ fileName ⟨"/b.ts"⟩ ∧
      (DependencyIndex.empty.extend pool.edges).buckets = [⟨⟨"/m.ts"⟩,
        [⟨⟨"/a.ts"⟩, ⟨0, 19⟩, "f", none⟩, ⟨⟨"/a.ts"⟩, ⟨0, 23⟩, "f", none⟩]⟩] ∧
      (analyze callsGrammar Config.standard linkedSession [⟨"/a.ts"⟩, ⟨"/b.ts"⟩]).1.buckets = [] := by
  intro pool
  have hscan : Scan.roots linkedSession.files Config.standard [⟨"/a.ts"⟩, ⟨"/b.ts"⟩] =
      [⟨⟨"/a.ts"⟩, .typescript⟩, ⟨⟨"/b.ts"⟩, .typescript⟩] := by
    rw [Scan.roots, List.flatMap_cons, List.flatMap_singleton,
      Scan.root_of_find (FileSystem.find_top "a.ts" rfl (by decide) rfl),
      Scan.root_of_find (FileSystem.find_top "b.ts" rfl (by decide) rfl)]
    decide
  have hrun : pool.edges = callsEdges ⟨"/a.ts"⟩ := by
    have hfirst : ((Pool.start linkedSession [⟨"/a.ts"⟩, ⟨"/b.ts"⟩]).step callsGrammar
        Config.standard.resolution 1).step callsGrammar Config.standard.resolution 1 = _ :=
      step_step rfl linkedSession
    obtain ⟨hempty, hcalls⟩ := file_linkedSession Config.standard.resolution
    simp only [pool, run, List.foldl_cons, List.foldl_nil, hfirst]
    rw [step_step rfl, hcalls, hempty]
    rfl
  refine ⟨hscan, fileName_ne, ?_, ?_⟩
  · rw [hrun]
    decide +kernel
  · have hedges : (fileList callsGrammar Config.standard.resolution linkedSession
        [⟨"/a.ts"⟩, ⟨"/b.ts"⟩]).1 = [] := fileList_linkedSession
    simp only [analyze, hscan, List.map_cons, List.map_nil, hedges]
    rfl

end Pool

end Dependents
