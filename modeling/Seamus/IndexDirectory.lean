-- `index/main.cpp`, the constructor of `IndexChunk` and that of `IndexManager`: which parser files a
-- worker of the indexer reads, which names its chunk files get, also when the program has ended
-- before its work was done and is started again, and which of them the loaders read.
import Seamus.IndexFile
import Seamus.HtmlTags
import Mathlib.Algebra.Order.Group.Multiset

open interleaving seamus.index seamus.index_file seamus.html_tags

namespace seamus.index_directory

/-! ## The source functions -/

def CRAWLER_THREADPOOL_SIZE : Nat := 256

def NUM_INDEXER_THREADS : Nat := 4

def INDEX_OUTPUT_DIR : Bytes := ascii "/var/seamus/index_output"

/-- The loop of `string(uint32_t)`; `tmp` has room for ten digits. -/
def digitLoop : (room n : Nat) → Bytes → Bytes
  | 0, _, tmp => tmp
  | room + 1, n, tmp =>
    if n = 0 then tmp else digitLoop room (n / 10) (UInt8.ofNat (n % 10 + 48) :: tmp)

/-- `string(uint32_t)`. -/
def ofUint32 (n : Nat) : Bytes := if n = 0 then [48] else digitLoop 10 n []

/-- The byte `'_'`. -/
def underscore : UInt8 := 95

def getIndexChunkPath (WORKER_NUMBER chunk : Nat) : Bytes :=
  INDEX_OUTPUT_DIR ++ ascii "/index_chunk_" ++ ofUint32 WORKER_NUMBER ++
    underscore :: (ofUint32 chunk ++ ascii ".txt")

inductive Content where
  | whole (file : ChunkFile)
  /-- The program has ended while the file was written. -/
  | cut
  deriving DecidableEq

structure DiskFile where
  path : Bytes
  content : Content
  deriving DecidableEq

def fileExists (disk : List DiskFile) (path : Bytes) : Bool := disk.any fun f => f.path = path

/-- The loop in the constructor of `IndexChunk`. -/
def firstMissing (disk : List DiskFile) (WORKER_NUMBER : Nat) : (turns chunk : Nat) → Option Nat
  | 0, _ => none
  | turns + 1, chunk =>
    if fileExists disk (getIndexChunkPath WORKER_NUMBER chunk) then
      firstMissing disk WORKER_NUMBER turns (u32 (chunk + 1))
    else some chunk

/-- The loop of `get_files`, with one turn for each parser. -/
def stripe : (turns parser : Nat) → List Nat
  | 0, _ => []
  | turns + 1, parser =>
    if parser < CRAWLER_THREADPOOL_SIZE then parser :: stripe turns (parser + NUM_INDEXER_THREADS)
    else []

/-- What a parser has left: no file, or one, which `fopen` may refuse to open. -/
abbrev ParserOutput := Nat → Option (Option InputFile)

def getFiles (out : ParserOutput) (workerNumber : Nat) : List (Option InputFile) :=
  (stripe CRAWLER_THREADPOOL_SIZE workerNumber).filterMap out

inductive Phase where
  /-- The program does not run. -/
  | off
  | spawned
  | working
  /-- Has opened a chunk file that it will not close, since the program ends before. -/
  | halfway
  | returned
  deriving DecidableEq

structure Worker where
  phase : Phase
  indexer : Indexer
  files : List (Option InputFile)
  deriving DecidableEq

structure System where
  out : ParserOutput
  workers : List Worker
  disk : List DiskFile

def initial : System :=
  ⟨fun _ => none, List.replicate NUM_INDEXER_THREADS ⟨.off, index_file.start 0, []⟩, []⟩

/-- `fopen(path, "wx")`. It fails for reasons of its own when `opens` is false. -/
def opensFile (opens : Bool) (workerNumber : Nat) (idx : Indexer) (disk : List DiskFile) : Bool :=
  opens && !fileExists disk (getIndexChunkPath workerNumber idx.mem.chunk)

/-- The next turn of the indexer in `worker`, and whether it is the last. -/
def nextTurn (opened : Bool) (w : Worker) : index_file.Turn × Bool :=
  match w.indexer.reader, w.files with
  | .closed _, f :: _ => (.indexFile f, false)
  | .closed _, [] => (.flush opened, true)
  | _, _ => (.goOn opened, false)

/-- The files that a worker leaves when it has indexed one more line, or has flushed. -/
def filesLeft (w : Worker) : List (Option InputFile) :=
  match w.indexer.reader with
  | .closed _ => w.files.tail
  | _ => w.files

def newFiles (workerNumber : Nat) (idx idx' : Indexer) : List DiskFile :=
  (idx'.files.drop idx.files.length).map fun file =>
    ⟨getIndexChunkPath workerNumber file.chunk, .whole file⟩

/-- The next section of `worker`. -/
def workerStep (i : Nat) (opens : Bool) (s : System) : Option System :=
  match s.workers[i]? with
  | none => none
  | some w =>
    match w.phase with
    | .off | .halfway | .returned => none
    | .spawned =>
      (firstMissing s.disk i (s.disk.length + 1) 0).map fun chunk =>
        { s with workers := s.workers.set i ⟨.working, index_file.start chunk, getFiles s.out i⟩ }
    | .working =>
      let turn := nextTurn (opensFile opens i w.indexer s.disk) w
      (index_file.step turn.1 w.indexer).map fun idx =>
        { s with
          workers := s.workers.set i ⟨if turn.2 then .returned else .working, idx, filesLeft w⟩
          disk := s.disk ++ newFiles i w.indexer idx }

/-- A worker that is about to flush opens the file, and comes no further. -/
def cutStep (i : Nat) (s : System) : Option System :=
  match s.workers[i]? with
  | none => none
  | some w =>
    if w.phase = .working ∧ (flushes (nextTurn true w).1 w.indexer).isSome ∧
        opensFile true i w.indexer s.disk then
      some { s with
        workers := s.workers.set i { w with phase := .halfway }
        disk := s.disk ++ [⟨getIndexChunkPath i w.indexer.mem.chunk, .cut⟩] }
    else none

inductive Turn where
  /-- `main` starts the workers. -/
  | main (out : ParserOutput)
  | work (i : Nat) (opens : Bool)
  | cut (i : Nat)
  /-- The program ends, whether its workers have returned or not. -/
  | stop

def setPhases (phase : Phase) (s : System) : System :=
  { s with workers := s.workers.map fun w => { w with phase } }

def step (turn : Turn) (s : System) : Option System :=
  match turn with
  | .main out =>
    if ∀ w ∈ s.workers, w.phase = .off then some (setPhases .spawned { s with out }) else none
  | .work i opens => workerStep i opens s
  | .cut i => cutStep i s
  | .stop => some (setPhases .off s)

/-! ## The constructor of `IndexManager` -/

/-- The paths of a worker, from a chunk number on. -/
def chunkPaths (disk : List DiskFile) (w : Nat) : (turns c : Nat) → Option (List Bytes)
  | 0, _ => none
  | turns + 1, c =>
    if fileExists disk (getIndexChunkPath w c) then
      (chunkPaths disk w turns (u32 (c + 1))).map (getIndexChunkPath w c :: ·)
    else some []

def findPaths (disk : List DiskFile) : (workers : List Nat) → Option (List Bytes)
  | [] => some []
  | w :: workers =>
    (chunkPaths disk w (disk.length + 1) 0).bind fun paths =>
      (findPaths disk workers).map (paths ++ ·)

/-- `paths`. -/
def discover (disk : List DiskFile) : Option (List Bytes) :=
  findPaths disk (List.range NUM_INDEXER_THREADS)

inductive Loader where
  | fetching
  | loading (i : Nat)
  | exited
  deriving DecidableEq

structure Loading where
  next : Nat
  loaders : List Loader
  /-- The file that each `chunk_manager` was loaded from, if it could be opened. -/
  chunkManagers : List (Option Content)

def readFile (disk : List DiskFile) (path : Bytes) : Option Content :=
  (disk.find? fun f => f.path = path).map DiskFile.content

def startLoaders (paths : List Bytes) : Loading :=
  ⟨0, List.replicate (min paths.length NUM_INDEXER_THREADS) .fetching, []⟩

/-- The next section of a loader. `next` is a `size_t`; each loader adds at most one to it beyond
the number of paths. -/
def loaderStep (disk : List DiskFile) (paths : List Bytes) (t : Nat) (l : Loading) :
    Option Loading :=
  match l.loaders[t]? with
  | none | some .exited => none
  | some .fetching =>
    some { l with
      next := l.next + 1
      loaders := l.loaders.set t (if paths.length ≤ l.next then .exited else .loading l.next) }
  | some (.loading i) =>
    some { l with
      loaders := l.loaders.set t .fetching
      chunkManagers := l.chunkManagers ++ [readFile disk (paths.getD i [])] }

/-! ## Names tell chunks apart -/

/-- The number that digits stand for, after others. -/
def numberOf (before : Nat) (digits : Bytes) : Nat :=
  digits.foldl (fun n digit => 10 * n + (digit.toNat - 48)) before

theorem toNat_digit (n : Nat) : (UInt8.ofNat (n % 10 + 48)).toNat = n % 10 + 48 := by
  apply UInt8.toNat_ofNat_of_lt'
  change n % 10 + 48 < 256
  omega

theorem numberOf_digitLoop {room n : Nat} (tmp : Bytes) (h : n < 10 ^ room) :
    numberOf 0 (digitLoop room n tmp) = numberOf n tmp := by
  induction room generalizing n tmp with
  | zero =>
    have hzero : n = 0 := by omega
    rw [hzero, digitLoop]
  | succ room ih =>
    rw [digitLoop]
    split
    · rename_i hzero
      rw [hzero]
    · rw [ih _ (by rw [Nat.pow_succ] at h; omega)]
      unfold numberOf
      rw [List.foldl_cons, toNat_digit]
      congr 1
      omega

theorem ofUint32_injective {n m : Nat} (hn : n < 2 ^ 32) (hm : m < 2 ^ 32)
    (h : ofUint32 n = ofUint32 m) : n = m := by
  have hnumber : ∀ k < 2 ^ 32, numberOf 0 (ofUint32 k) = k := by
    intro k hk
    unfold ofUint32
    split
    · rename_i hzero
      rw [hzero]
      rfl
    · exact numberOf_digitLoop [] (by omega)
  rw [← hnumber n hn, h, hnumber m hm]

theorem underscore_notMem (n : Nat) : underscore ∉ ofUint32 n := by
  have hloop : ∀ room k tmp, underscore ∉ tmp → underscore ∉ digitLoop room k tmp := by
    intro room
    induction room with
    | zero => exact fun k tmp htmp => htmp
    | succ room ih =>
      intro k tmp htmp
      rw [digitLoop]
      split
      · exact htmp
      · apply ih
        rw [List.mem_cons, not_or]
        refine ⟨fun heq => ?_, htmp⟩
        have hdigit := toNat_digit k
        rw [← heq] at hdigit
        have hlarge : underscore.toNat = 95 := rfl
        omega
  unfold ofUint32
  split
  · decide
  · exact hloop 10 n [] List.not_mem_nil

/-- What comes before a mark that it does not have. -/
theorem append_mark_inj {mark : UInt8} {xs xs' ys ys' : Bytes} (hxs : mark ∉ xs)
    (hxs' : mark ∉ xs') (h : xs ++ mark :: ys = xs' ++ mark :: ys') : xs = xs' ∧ ys = ys' := by
  induction xs generalizing xs' with
  | nil =>
    cases xs' with
    | nil => exact ⟨rfl, (List.cons.inj h).2⟩
    | cons x' xs' =>
      rw [← (List.cons.inj h).1] at hxs'
      exact absurd List.mem_cons_self hxs'
  | cons x xs ih =>
    cases xs' with
    | nil =>
      rw [(List.cons.inj h).1] at hxs
      exact absurd List.mem_cons_self hxs
    | cons x' xs' =>
      obtain ⟨rfl, hrest⟩ := List.cons.inj h
      obtain ⟨rfl, hys⟩ := ih (mt (List.mem_cons_of_mem x) hxs) (mt (List.mem_cons_of_mem x) hxs') hrest
      exact ⟨rfl, hys⟩

theorem getIndexChunkPath_injective {w w' c c' : Nat} (hw : w < 2 ^ 32) (hw' : w' < 2 ^ 32)
    (hc : c < 2 ^ 32) (hc' : c' < 2 ^ 32) (h : getIndexChunkPath w c = getIndexChunkPath w' c') :
    w = w' ∧ c = c' := by
  unfold getIndexChunkPath at h
  rw [List.append_assoc _ (ofUint32 w), List.append_assoc _ (ofUint32 w'),
    List.append_cancel_left_eq] at h
  obtain ⟨hworker, hrest⟩ := append_mark_inj (underscore_notMem w) (underscore_notMem w') h
  exact ⟨ofUint32_injective hw hw' hworker,
    ofUint32_injective hc hc' (List.append_cancel_right hrest)⟩

/-! ## What a turn can do -/

/-- A turn of the indexer writes one file at most. -/
theorem step_files {turn : index_file.Turn} {idx idx' : Indexer}
    (h : index_file.step turn idx = some idx') :
    idx'.files = idx.files ∧ idx'.mem.chunk = idx.mem.chunk ∨
      flushes turn idx = some true ∧ ∃ file, idx'.files = idx.files ++ [file] ∧
        file.chunk = idx.mem.chunk ∧ idx'.mem.chunk = u32 (idx.mem.chunk + 1) := by
  cases step_change h with
  | move | newUrl | newWord | finish => exact Or.inl ⟨rfl, rfl⟩
  | @flush opens reader hflush =>
    unfold flush persist
    split
    · rename_i hcreate
      have hopens : opens = true := (Bool.and_eq_true_iff.mp hcreate).1
      rw [hopens] at hflush
      exact Or.inr ⟨hflush, _, rfl, rfl, rfl⟩
    · exact Or.inl ⟨rfl, rfl⟩

theorem flushes_nextTurn {opened : Bool} {w : Worker}
    (h : flushes (nextTurn opened w).1 w.indexer = some true) : opened = true := by
  unfold nextTurn at h
  split at h
  · simp [flushes] at h
  · rename_i hreader _
    simpa [flushes, hreader] using h
  · simp only [flushes] at h
    split at h
    · rename_i hturn _
      cases hturn
    · rename_i hturn _
      cases hturn
      split at h
      · exact Option.some.inj h
      · cases h
    · cases h

/-- What a turn does to the disk. -/
inductive Moves (s : System) : Turn → System → Prop where
  | main {out : ParserOutput} (hoff : ∀ w ∈ s.workers, w.phase = .off) :
      Moves s (.main out) (setPhases .spawned { s with out })
  | spawn {i chunk : Nat} {opens : Bool} {w : Worker} (hw : s.workers[i]? = some w)
      (hphase : w.phase = .spawned)
      (hchunk : firstMissing s.disk i (s.disk.length + 1) 0 = some chunk) :
      Moves s (.work i opens)
        { s with
          workers := s.workers.set i ⟨.working, index_file.start chunk, getFiles s.out i⟩ }
  | quiet {i : Nat} {opens : Bool} {w w' : Worker} (hw : s.workers[i]? = some w)
      (hphase : w.phase = .working) (hchunk : w'.indexer.mem.chunk = w.indexer.mem.chunk) :
      Moves s (.work i opens) { s with workers := s.workers.set i w' }
  | write {i : Nat} {opens : Bool} {w w' : Worker} {file : ChunkFile}
      (hw : s.workers[i]? = some w) (hphase : w.phase = .working)
      (hopens : opensFile opens i w.indexer s.disk = true)
      (hfile : file.chunk = w.indexer.mem.chunk)
      (hchunk : w'.indexer.mem.chunk = u32 (w.indexer.mem.chunk + 1)) :
      Moves s (.work i opens)
        { s with
          workers := s.workers.set i w'
          disk := s.disk ++ [⟨getIndexChunkPath i file.chunk, .whole file⟩] }
  | cut {i : Nat} {w : Worker} (hw : s.workers[i]? = some w) (hphase : w.phase = .working)
      (hopens : opensFile true i w.indexer s.disk = true) :
      Moves s (.cut i)
        { s with
          workers := s.workers.set i { w with phase := .halfway }
          disk := s.disk ++ [⟨getIndexChunkPath i w.indexer.mem.chunk, .cut⟩] }
  | stop : Moves s .stop (setPhases .off s)

theorem workerStep_moves {i : Nat} {opens : Bool} {s s' : System}
    (h : workerStep i opens s = some s') : Moves s (.work i opens) s' := by
  unfold workerStep at h
  split at h
  · cases h
  · rename_i w hw
    split at h
    · cases h
    · cases h
    · cases h
    · rename_i hphase
      obtain ⟨chunk, hchunk, rfl⟩ := Option.map_eq_some_iff.mp h
      exact .spawn hw hphase hchunk
    · rename_i hphase
      obtain ⟨idx, hidx, rfl⟩ := Option.map_eq_some_iff.mp h
      rcases step_files hidx with ⟨hfiles, hchunk⟩ | ⟨hflush, file, hfiles, hfile, hchunk⟩
      · have hnew : newFiles i w.indexer idx = [] := by
          rw [newFiles, hfiles, List.drop_length, List.map_nil]
        rw [hnew, List.append_nil]
        exact .quiet hw hphase hchunk
      · have hnew : newFiles i w.indexer idx =
            [⟨getIndexChunkPath i file.chunk, .whole file⟩] := by
          rw [newFiles, hfiles, List.drop_left, List.map_singleton]
        rw [hnew]
        exact .write hw hphase (flushes_nextTurn hflush) hfile hchunk

theorem step_moves {turn : Turn} {s s' : System} (h : step turn s = some s') :
    Moves s turn s' := by
  cases turn with
  | main out =>
    simp only [step] at h
    split at h <;> cases h
    rename_i hoff
    exact .main hoff
  | work i opens => exact workerStep_moves h
  | cut i =>
    simp only [step, cutStep] at h
    split at h
    · cases h
    · rename_i w hw
      split at h <;> cases h
      rename_i hcut
      exact .cut hw hcut.1 hcut.2.2
  | stop =>
    cases h
    exact .stop

/-! ## The numbers of the chunk files -/

/-- The chunk files of a worker have the numbers below `n`. -/
def NumberedTo (disk : List DiskFile) (w n : Nat) : Prop :=
  n ≤ 2 ^ 32 ∧ ∀ c < 2 ^ 32, fileExists disk (getIndexChunkPath w c) = true ↔ c < n

structure Tidy (disk : List DiskFile) : Prop where
  nodup : (disk.map DiskFile.path).Nodup
  named : ∀ f ∈ disk, ∃ w < NUM_INDEXER_THREADS, ∃ c < 2 ^ 32, f.path = getIndexChunkPath w c
  numbered : ∀ w < NUM_INDEXER_THREADS, ∃ n, NumberedTo disk w n

structure Inv (s : System) : Prop where
  length : s.workers.length = NUM_INDEXER_THREADS
  tidy : Tidy s.disk
  /-- The next file of a worker is the first that is missing. -/
  working : ∀ (i : Nat) (w : Worker), s.workers[i]? = some w → w.phase = .working →
    ∃ n, NumberedTo s.disk i n ∧ w.indexer.mem.chunk = u32 n

theorem fileExists_concat (disk : List DiskFile) (f : DiskFile) (path : Bytes) :
    fileExists (disk ++ [f]) path = true ↔ fileExists disk path = true ∨ f.path = path := by
  simp [fileExists]

theorem mem_of_fileExists {disk : List DiskFile} {path : Bytes} :
    fileExists disk path = true ↔ path ∈ disk.map DiskFile.path := by
  simp [fileExists]

section Numbers

variable {disk : List DiskFile} {i j n m : Nat} {content : Content}

theorem lt_of_workers (hi : i < NUM_INDEXER_THREADS) : i < 2 ^ 32 := hi.trans (by decide)

/-- The file that a worker may open has the first number that is missing. -/
theorem NumberedTo.opens {opens : Bool} {idx : Indexer} (h : NumberedTo disk i n)
    (hchunk : idx.mem.chunk = u32 n) (hopens : opensFile opens i idx disk = true) :
    n < 2 ^ 32 ∧ idx.mem.chunk = n := by
  have hfree : fileExists disk (getIndexChunkPath i (u32 n)) = false := by
    rw [← hchunk]
    simpa using (Bool.and_eq_true_iff.mp hopens).2
  have hlt : u32 n < 2 ^ 32 := Nat.mod_lt _ (by decide)
  have hnot : ¬u32 n < n := by
    rw [← h.2 _ hlt, hfree]
    exact Bool.false_ne_true
  have hle := h.1
  have hn : n < 2 ^ 32 := by
    by_contra hge
    have heq : n = 2 ^ 32 := by omega
    rw [heq] at hnot
    exact hnot (by decide)
  exact ⟨hn, by rw [hchunk, u32_of_lt hn]⟩

/-- There is no file under the first number that is missing. -/
theorem NumberedTo.opensFile {idx : Indexer} (h : NumberedTo disk i n) (hn : n < 2 ^ 32)
    (hchunk : idx.mem.chunk = u32 n) : opensFile true i idx disk = true := by
  have hmissing : ¬fileExists disk (getIndexChunkPath i n) = true := by
    rw [h.2 n hn]
    exact Nat.lt_irrefl n
  unfold index_directory.opensFile
  rw [hchunk, u32_of_lt hn, Bool.eq_false_iff.mpr hmissing]
  rfl

theorem NumberedTo.write (h : NumberedTo disk i n) (hi : i < NUM_INDEXER_THREADS)
    (hn : n < 2 ^ 32) : NumberedTo (disk ++ [⟨getIndexChunkPath i n, content⟩]) i (n + 1) := by
  refine ⟨hn, fun c hc => ?_⟩
  rw [fileExists_concat, h.2 c hc]
  constructor
  · rintro (hlt | heq)
    · exact hlt.trans (Nat.lt_succ_self n)
    · have hc' := (getIndexChunkPath_injective (lt_of_workers hi) (lt_of_workers hi) hn hc heq).2
      omega
  · intro hlt
    rcases Nat.lt_succ_iff_lt_or_eq.mp hlt with hlt | rfl
    · exact Or.inl hlt
    · exact Or.inr rfl

theorem NumberedTo.other (h : NumberedTo disk j m) (hne : j ≠ i) (hi : i < NUM_INDEXER_THREADS)
    (hj : j < NUM_INDEXER_THREADS) (hn : n < 2 ^ 32) :
    NumberedTo (disk ++ [⟨getIndexChunkPath i n, content⟩]) j m := by
  refine ⟨h.1, fun c hc => ?_⟩
  rw [fileExists_concat, h.2 c hc]
  refine or_iff_left fun heq => hne ?_
  exact (getIndexChunkPath_injective (lt_of_workers hi) (lt_of_workers hj) hn hc heq).1.symm

theorem Tidy.write (h : Tidy disk) (hi : i < NUM_INDEXER_THREADS) (hn : n < 2 ^ 32)
    (hnumbered : NumberedTo disk i n) : Tidy (disk ++ [⟨getIndexChunkPath i n, content⟩]) where
  nodup := by
    rw [List.map_append, List.nodup_append]
    refine ⟨h.nodup, List.nodup_singleton _, fun path hpath path' hpath' heq => ?_⟩
    rw [heq, List.mem_singleton.mp hpath', ← mem_of_fileExists, hnumbered.2 n hn] at hpath
    exact Nat.lt_irrefl n hpath
  named f hf := by
    rcases List.mem_append.mp hf with hf | hf
    · exact h.named f hf
    · rw [List.mem_singleton.mp hf]
      exact ⟨i, hi, n, hn, rfl⟩
  numbered w hw := by
    by_cases hwi : w = i
    · subst hwi
      exact ⟨n + 1, hnumbered.write hi hn⟩
    · obtain ⟨m, hm⟩ := h.numbered w hw
      exact ⟨m, hm.other hwi hi hw hn⟩

theorem NumberedTo.length_le (h : NumberedTo disk i n) (hi : i < NUM_INDEXER_THREADS) :
    n ≤ disk.length := by
  have hnodup : ((List.range n).map (getIndexChunkPath i)).Nodup := by
    apply List.Nodup.map_on _ List.nodup_range
    intro c hc c' hc' heq
    have hlt := (List.mem_range.mp hc).trans_le h.1
    have hlt' := (List.mem_range.mp hc').trans_le h.1
    exact (getIndexChunkPath_injective (lt_of_workers hi) (lt_of_workers hi) hlt hlt' heq).2
  have hsub : (List.range n).map (getIndexChunkPath i) ⊆ disk.map DiskFile.path := by
    intro path hpath
    obtain ⟨c, hc, rfl⟩ := List.mem_map.mp hpath
    rw [← mem_of_fileExists, h.2 c ((List.mem_range.mp hc).trans_le h.1)]
    exact List.mem_range.mp hc
  have hlength := (List.subperm_of_subset hnodup hsub).length_le
  rwa [List.length_map, List.length_range, List.length_map] at hlength

theorem firstMissing_eq (h : NumberedTo disk i n) {turns c chunk : Nat} (hlt : c < 2 ^ 32)
    (hc : c ≤ n) (hmissing : firstMissing disk i turns c = some chunk) :
    n < 2 ^ 32 ∧ chunk = n := by
  induction turns generalizing c with
  | zero => cases hmissing
  | succ turns ih =>
    rw [firstMissing] at hmissing
    split at hmissing
    · rename_i hexists
      rw [h.2 c hlt] at hexists
      have hle : u32 (c + 1) ≤ c + 1 := Nat.mod_le _ _
      exact ih (Nat.mod_lt _ (by decide)) (by omega) hmissing
    · rename_i hexists
      rw [h.2 c hlt] at hexists
      cases hmissing
      exact ⟨by omega, by omega⟩

theorem firstMissing_of_numbered (h : NumberedTo disk i n) (hn : n < 2 ^ 32) {turns c : Nat}
    (hc : c ≤ n) (hturns : n < c + turns) : firstMissing disk i turns c = some n := by
  induction turns generalizing c with
  | zero => omega
  | succ turns ih =>
    rw [firstMissing]
    split <;> rename_i hexists <;> rw [h.2 c (by omega)] at hexists
    · rw [u32_of_lt (by omega)]
      exact ih hexists (by omega)
    · rw [show c = n by omega]

theorem chunkPaths_eq (h : NumberedTo disk i n) (hn : n < 2 ^ 32) {turns c : Nat}
    (hc : c ≤ n) (hturns : n < c + turns) :
    chunkPaths disk i turns c = some ((List.range' c (n - c)).map (getIndexChunkPath i)) := by
  induction turns generalizing c with
  | zero => omega
  | succ turns ih =>
    rw [chunkPaths]
    split <;> rename_i hexists <;> rw [h.2 c (by omega)] at hexists
    · rw [u32_of_lt (by omega), ih hexists (by omega), Option.map_some,
        show n - c = n - (c + 1) + 1 by omega, List.range'_succ, List.map_cons]
    · rw [show n - c = 0 by omega]
      rfl

end Numbers

/-! ## What holds after every turn -/

theorem Inv.of_phases {s : System} (inv : Inv s) (phase : Phase) (hphase : phase ≠ .working) :
    Inv (setPhases phase s) where
  length := by simpa [setPhases] using inv.length
  tidy := inv.tidy
  working i w hw hworking := by
    obtain ⟨v, _, rfl⟩ := List.mem_map.mp (List.mem_of_getElem? hw)
    exact absurd hworking hphase

/-- A worker goes on, and the disk stays as it is. -/
theorem Inv.quiet {s : System} (inv : Inv s) {i : Nat} {w' : Worker}
    (hown : ∃ n, NumberedTo s.disk i n ∧ w'.indexer.mem.chunk = u32 n) :
    Inv { s with workers := s.workers.set i w' } where
  length := by rw [List.length_set, inv.length]
  tidy := inv.tidy
  working := by
    intro j w hw hworking
    rcases getElem?_set_cases hw with ⟨rfl, rfl⟩ | ⟨_, hold⟩
    · exact hown
    · exact inv.working j w hold hworking

/-- A worker opens the first file that is missing. -/
theorem Inv.write {s : System} (inv : Inv s) {i n : Nat} {w w' : Worker} {content : Content}
    (hw : s.workers[i]? = some w) (hnumbered : NumberedTo s.disk i n) (hn : n < 2 ^ 32)
    (hchunk : w'.phase = .working → w'.indexer.mem.chunk = u32 (n + 1)) :
    Inv { s with
      workers := s.workers.set i w'
      disk := s.disk ++ [⟨getIndexChunkPath i n, content⟩] } := by
  have hworker {j : Nat} {v : Worker} (hv : s.workers[j]? = some v) : j < NUM_INDEXER_THREADS := by
    rw [← inv.length]
    exact (List.getElem?_eq_some_iff.mp hv).1
  refine ⟨by rw [List.length_set, inv.length], inv.tidy.write (hworker hw) hn hnumbered, ?_⟩
  intro j v hv hworking
  rcases getElem?_set_cases hv with ⟨rfl, rfl⟩ | ⟨hne, hold⟩
  · exact ⟨n + 1, hnumbered.write (hworker hw) hn, hchunk hworking⟩
  · obtain ⟨m, hm, hmem⟩ := inv.working j v hold hworking
    exact ⟨m, hm.other hne (hworker hw) (hworker hold) hn, hmem⟩

theorem inv_step {turn : Turn} {s s' : System} (inv : Inv s) (h : step turn s = some s') :
    Inv s' := by
  cases step_moves h with
  | @main out hoff =>
    have inv' : Inv { s with out } := ⟨inv.length, inv.tidy, inv.working⟩
    exact inv'.of_phases .spawned (by decide)
  | @spawn i chunk opens w hw hphase hchunk =>
    apply inv.quiet
    have hlt : i < NUM_INDEXER_THREADS := by
      rw [← inv.length]
      exact (List.getElem?_eq_some_iff.mp hw).1
    obtain ⟨n, hn⟩ := inv.tidy.numbered i hlt
    obtain ⟨hlast, rfl⟩ := firstMissing_eq hn (by decide) (Nat.zero_le n) hchunk
    exact ⟨chunk, hn, (u32_of_lt hlast).symm⟩
  | quiet hw hphase hchunk =>
    apply inv.quiet
    rw [hchunk]
    exact inv.working _ _ hw hphase
  | @write i opens w w' file hw hphase hopens hfile hchunk =>
    obtain ⟨n, hn, hmem⟩ := inv.working i w hw hphase
    obtain ⟨hlt, hnext⟩ := hn.opens hmem hopens
    rw [hfile, hnext]
    rw [hnext] at hchunk
    exact inv.write hw hn hlt fun _ => hchunk
  | @cut i w hw hphase hopens =>
    obtain ⟨n, hn, hmem⟩ := inv.working i w hw hphase
    obtain ⟨hlt, hnext⟩ := hn.opens hmem hopens
    rw [hnext]
    exact inv.write hw hn hlt fun hworking => absurd hworking (by simp)
  | stop => exact inv.of_phases .off (by decide)

theorem inv_initial : Inv initial where
  length := List.length_replicate
  tidy := by
    refine ⟨List.nodup_nil, fun f hf => absurd hf List.not_mem_nil, fun w _ => ⟨0, ?_⟩⟩
    exact ⟨Nat.zero_le _, fun c _ => by simp [initial, fileExists]⟩
  working i w hw hworking := by
    rw [List.eq_of_mem_replicate (List.mem_of_getElem? hw)] at hworking
    cases hworking

/-! ## Every chunk file is found -/

/-- The paths of the chunk files whose numbers are below a bound for each worker. -/
def pathsBelow (bound : Nat → Nat) (workers : List Nat) : List Bytes :=
  workers.flatMap fun w => (List.range (bound w)).map (getIndexChunkPath w)

section Discovery

variable {disk : List DiskFile} {bound : Nat → Nat}

theorem findPaths_eq (hfew : disk.length < 2 ^ 32) {workers : List Nat}
    (hworkers : ∀ w ∈ workers, w < NUM_INDEXER_THREADS ∧ NumberedTo disk w (bound w)) :
    findPaths disk workers = some (pathsBelow bound workers) := by
  induction workers with
  | nil => rfl
  | cons w workers ih =>
    obtain ⟨hw, hbound⟩ := hworkers w List.mem_cons_self
    have hle := hbound.length_le hw
    have hturns : bound w < 0 + (disk.length + 1) := by omega
    rw [findPaths, chunkPaths_eq hbound (by omega) (Nat.zero_le _) hturns, Option.bind_some,
      ih fun v hv => hworkers v (List.mem_cons_of_mem w hv), Option.map_some, Nat.sub_zero,
      ← List.range_eq_range']
    rfl

theorem pathsBelow_nodup {workers : List Nat} (hnodup : workers.Nodup)
    (hworkers : ∀ w ∈ workers, w < NUM_INDEXER_THREADS ∧ bound w ≤ 2 ^ 32) :
    (pathsBelow bound workers).Nodup := by
  have hinj : ∀ w ∈ workers, ∀ v ∈ workers, ∀ c < bound w, ∀ d < bound v,
      getIndexChunkPath w c = getIndexChunkPath v d → w = v ∧ c = d := by
    intro w hw v hv c hc d hd
    apply getIndexChunkPath_injective (lt_of_workers (hworkers w hw).1)
      (lt_of_workers (hworkers v hv).1) (hc.trans_le (hworkers w hw).2) (hd.trans_le (hworkers v hv).2)
  apply List.nodup_flatMap.mpr
  constructor
  · intro w hw
    apply List.Nodup.map_on _ List.nodup_range
    intro c hc d hd heq
    exact (hinj w hw w hw c (List.mem_range.mp hc) d (List.mem_range.mp hd) heq).2
  · apply List.Pairwise.imp_of_mem _ hnodup
    intro w v hw hv hne path hpath hpath'
    obtain ⟨c, hc, rfl⟩ := List.mem_map.mp hpath
    obtain ⟨d, hd, heq⟩ := List.mem_map.mp hpath'
    exact hne (hinj v hv w hw d (List.mem_range.mp hd) c (List.mem_range.mp hc) heq).1.symm

/-- The walk over the numbers ends, and finds the files of all workers, each once. -/
theorem discover_eq (h : Tidy disk) (hfew : disk.length < 2 ^ 32) :
    ∃ paths, discover disk = some paths ∧ paths.Perm (disk.map DiskFile.path) := by
  choose! bound hbound using h.numbered
  have hworkers : ∀ w ∈ List.range NUM_INDEXER_THREADS,
      w < NUM_INDEXER_THREADS ∧ NumberedTo disk w (bound w) :=
    fun w hw => ⟨List.mem_range.mp hw, hbound w (List.mem_range.mp hw)⟩
  refine ⟨_, findPaths_eq hfew hworkers, ?_⟩
  apply (List.perm_ext_iff_of_nodup _ h.nodup).mpr
  · intro path
    constructor
    · intro hpath
      obtain ⟨w, hw, hmem⟩ := List.mem_flatMap.mp hpath
      obtain ⟨c, hc, rfl⟩ := List.mem_map.mp hmem
      have hnumbered := (hworkers w hw).2
      rw [← mem_of_fileExists, hnumbered.2 c ((List.mem_range.mp hc).trans_le hnumbered.1)]
      exact List.mem_range.mp hc
    · intro hpath
      obtain ⟨f, hf, rfl⟩ := List.mem_map.mp hpath
      obtain ⟨w, hw, c, hc, heq⟩ := h.named f hf
      have hexists : fileExists disk (getIndexChunkPath w c) = true :=
        mem_of_fileExists.mpr (heq ▸ List.mem_map_of_mem hf)
      rw [(hbound w hw).2 c hc] at hexists
      rw [heq]
      exact List.mem_flatMap.mpr ⟨w, List.mem_range.mpr hw,
        List.mem_map_of_mem (List.mem_range.mpr hexists)⟩
  · exact pathsBelow_nodup List.nodup_range fun w hw => ⟨(hworkers w hw).1, (hworkers w hw).2.1⟩

/-- A path leads to its file. -/
theorem readFile_path (h : (disk.map DiskFile.path).Nodup) {f : DiskFile} (hf : f ∈ disk) :
    readFile disk f.path = some f.content := by
  unfold readFile
  induction disk with
  | nil => exact absurd hf List.not_mem_nil
  | cons g disk ih =>
    rw [List.map_cons, List.nodup_cons] at h
    rcases List.mem_cons.mp hf with rfl | hf
    · rw [List.find?_cons_of_pos (by simp)]
      rfl
    · have hne : g.path ≠ f.path := fun heq => h.1 (heq ▸ List.mem_map_of_mem hf)
      rw [List.find?_cons_of_neg (by simpa using hne)]
      exact ih h.2 hf

end Discovery

/-! ## Every chunk file is loaded -/

/-- What a loader has in hand. -/
def inHand (disk : List DiskFile) (paths : List Bytes) : Loader → Multiset (Option Content)
  | .loading i => {readFile disk (paths.getD i [])}
  | .fetching | .exited => 0

def loaderLeft : Loader → Nat
  | .loading _ => 2
  | .fetching => 1
  | .exited => 0

def left (paths : List Bytes) (l : Loading) : Nat :=
  2 * (paths.length - l.next) + total loaderLeft l.loaders

structure LoadInv (disk : List DiskFile) (paths : List Bytes) (l : Loading) : Prop where
  loaded : total (inHand disk paths) l.loaders + (l.chunkManagers : Multiset (Option Content)) =
    ((paths.take l.next).map (readFile disk) : List (Option Content))
  length : l.loaders.length = min paths.length NUM_INDEXER_THREADS
  exited : ∀ t : Nat, l.loaders[t]? = some .exited → paths.length ≤ l.next

section Loaders

variable {disk : List DiskFile} {paths : List Bytes} {t : Nat} {l l' : Loading}

theorem loadInv_start : LoadInv disk paths (startLoaders paths) where
  loaded := by
    have hnone : total (inHand disk paths) (startLoaders paths).loaders = 0 :=
      total_eq_zero _ fun p hp => by rw [List.eq_of_mem_replicate hp]; rfl
    rw [hnone]
    rfl
  length := List.length_replicate
  exited t h := by
    have hmem := List.eq_of_mem_replicate (List.mem_of_getElem? h)
    cases hmem

theorem loaderStep_left (h : loaderStep disk paths t l = some l') :
    left paths l' < left paths l := by
  unfold loaderStep at h
  unfold left
  split at h
  · cases h
  · cases h
  · rename_i ht
    cases h
    by_cases hlast : paths.length ≤ l.next
    · have hset := total_set loaderLeft .exited ht
      simp only [loaderLeft, if_pos hlast] at hset ⊢
      omega
    · have hset := total_set loaderLeft (.loading l.next) ht
      simp only [loaderLeft, if_neg hlast] at hset ⊢
      omega
  · rename_i i ht
    cases h
    have hset := total_set loaderLeft .fetching ht
    simp only [loaderLeft] at hset ⊢
    omega

theorem loadInv_step (inv : LoadInv disk paths l) (h : loaderStep disk paths t l = some l') :
    LoadInv disk paths l' := by
  unfold loaderStep at h
  split at h
  · cases h
  · cases h
  · rename_i ht
    cases h
    by_cases hlast : paths.length ≤ l.next
    · simp only [if_pos hlast]
      have hkeep : total (inHand disk paths) (l.loaders.set t .exited) =
          total (inHand disk paths) l.loaders := total_keep (inHand disk paths) ht rfl
      have hall : paths.take (l.next + 1) = paths.take l.next := by
        rw [List.take_of_length_le hlast, List.take_of_length_le (hlast.trans (Nat.le_succ _))]
      have hloaded := inv.loaded
      rw [← hkeep, ← hall] at hloaded
      exact ⟨hloaded, by rw [List.length_set, inv.length], fun _ _ => hlast.trans (Nat.le_succ _)⟩
    · simp only [if_neg hlast]
      have hlt : l.next < paths.length := Nat.lt_of_not_le hlast
      have hgain : total (inHand disk paths) (l.loaders.set t (.loading l.next)) =
          {readFile disk (paths.getD l.next [])} + total (inHand disk paths) l.loaders :=
        total_gain (inHand disk paths) ht (add_zero _).symm
      have hpath : paths.getD l.next [] = paths[l.next] := by simp [hlt]
      refine ⟨?_, by rw [List.length_set, inv.length], fun j hj => ?_⟩
      · rw [List.take_succ_eq_append_getElem hlt, List.map_append, List.map_singleton,
          ← Multiset.coe_add, ← inv.loaded, hgain, hpath, Multiset.coe_singleton]
        abel
      · rcases getElem?_set_cases hj with ⟨_, heq⟩ | ⟨_, hold⟩
        · cases heq
        · exact (inv.exited j hold).trans (Nat.le_succ _)
  · rename_i i ht
    cases h
    refine ⟨?_, by rw [List.length_set, inv.length], fun j hj => ?_⟩
    · have hlose : {readFile disk (paths.getD i [])} +
          total (inHand disk paths) (l.loaders.set t .fetching) = total (inHand disk paths) l.loaders :=
        total_lose (inHand disk paths) ht (add_zero _).symm
      rw [← inv.loaded, ← hlose, ← Multiset.coe_add, Multiset.coe_singleton]
      abel
    · rcases getElem?_set_cases hj with ⟨_, heq⟩ | ⟨_, hold⟩
      · cases heq
      · exact inv.exited j hold

/-- Where no loader can go on, all paths are loaded. -/
theorem LoadInv.all_loaded (inv : LoadInv disk paths l)
    (hstuck : ∀ t, loaderStep disk paths t l = none) :
    l.chunkManagers.Perm (paths.map (readFile disk)) := by
  have hexited : ∀ (t : Nat) (p : Loader), l.loaders[t]? = some p → p = .exited := by
    intro t p hp
    have hnone := hstuck t
    unfold loaderStep at hnone
    rw [hp] at hnone
    cases p with
    | exited => rfl
    | fetching => cases hnone
    | loading i => cases hnone
  have hhand : total (inHand disk paths) l.loaders = 0 := by
    apply total_eq_zero
    intro p hp
    obtain ⟨t, ht⟩ := List.mem_iff_getElem?.mp hp
    rw [hexited t p ht]
    rfl
  have hnext : paths.length ≤ l.next := by
    by_cases hnil : paths = []
    · rw [hnil]
      exact Nat.zero_le _
    · have hpos : 0 < l.loaders.length := by
        rw [inv.length]
        exact Nat.lt_min.mpr ⟨List.length_pos_iff.mpr hnil, by decide⟩
      have hfirst := List.getElem?_eq_getElem hpos
      have heq := hexited 0 _ hfirst
      rw [heq] at hfirst
      exact inv.exited 0 hfirst
  have hloaded := inv.loaded
  rw [hhand, zero_add, List.take_of_length_le hnext] at hloaded
  exact Multiset.coe_eq_coe.mp hloaded

/-- When the loaders have come to an end, each file of the disk is loaded once. -/
theorem loaded_perm (h : Tidy disk) (hperm : paths.Perm (disk.map DiskFile.path))
    {turns : List Nat} (hrun : exec (loaderStep disk paths) turns (startLoaders paths) = some l)
    (hstuck : ∀ t, loaderStep disk paths t l = none) :
    l.chunkManagers.Perm (disk.map fun f => some f.content) := by
  have hloaded := (exec_preserves (fun _ _ _ inv hstep => loadInv_step inv hstep)
    loadInv_start hrun).all_loaded hstuck
  have hcontents : (disk.map DiskFile.path).map (readFile disk) =
      disk.map fun f => some f.content := by
    rw [List.map_map]
    exact List.map_congr_left fun f hf => readFile_path h.nodup hf
  rw [← hcontents]
  exact hloaded.trans (hperm.map _)

end Loaders

/-! ## Runs of the program -/

theorem Inv.opens {s : System} (inv : Inv s) (hfew : s.disk.length < 2 ^ 32) {i : Nat} {w : Worker}
    (hw : s.workers[i]? = some w) (hphase : w.phase = .working) :
    opensFile true i w.indexer s.disk = true := by
  have hi : i < NUM_INDEXER_THREADS := by
    rw [← inv.length]
    exact (List.getElem?_eq_some_iff.mp hw).1
  obtain ⟨n, hn, hchunk⟩ := inv.working i w hw hphase
  exact hn.opensFile ((hn.length_le hi).trans_lt hfew) hchunk

theorem disk_grows {turn : Turn} {s s' : System} (h : step turn s = some s') :
    s.disk <+: s'.disk := by
  cases step_moves h with
  | main | spawn | quiet | stop => exact List.prefix_refl _
  | write | cut => exact List.prefix_append _ _

theorem disk_grows_in_run {turns : List Turn} {s s' : System} (h : exec step turns s = some s') :
    s.disk <+: s'.disk := by
  have hgrows : ∀ turn (t t' : System), s.disk <+: t.disk → step turn t = some t' →
      s.disk <+: t'.disk := fun _ _ _ ht hstep => ht.trans (disk_grows hstep)
  exact exec_preserves hgrows (List.prefix_refl _) h

/-- In every run of the indexer, also where it ends at any point and is started again: a chunk file
stays as it was written, and a worker that flushes has a name that no file has. An `IndexManager`
that starts then finds all files, each once, and however its loaders take turns they come to an end
and have loaded each file once. -/
theorem chunk_files_are_loaded_once {turns : List Turn} {s : System}
    (h : exec step turns initial = some s) (hfew : s.disk.length < 2 ^ 32) :
    (∀ before after t, turns = before ++ after → exec step before initial = some t →
      t.disk <+: s.disk) ∧
    (∀ (i : Nat) (w : Worker), s.workers[i]? = some w → w.phase = .working →
      opensFile true i w.indexer s.disk = true) ∧
    ∃ paths, discover s.disk = some paths ∧ paths.Perm (s.disk.map DiskFile.path) ∧
      ∀ loaderTurns l, exec (loaderStep s.disk paths) loaderTurns (startLoaders paths) = some l →
        loaderTurns.length ≤ 2 * paths.length + NUM_INDEXER_THREADS ∧
        ((∀ t, loaderStep s.disk paths t l = none) →
          l.chunkManagers.Perm (s.disk.map fun f => some f.content)) := by
  have inv : Inv s := exec_preserves (fun _ _ _ inv hstep => inv_step inv hstep) inv_initial h
  refine ⟨?_, fun i w hw hphase => inv.opens hfew hw hphase, ?_⟩
  · rintro before after t rfl hbefore
    rw [exec_append, hbefore, Option.bind_some] at h
    exact disk_grows_in_run h
  obtain ⟨paths, hpaths, hperm⟩ := discover_eq inv.tidy hfew
  refine ⟨paths, hpaths, hperm, fun loaderTurns l hrun => ⟨?_, fun hstuck => ?_⟩⟩
  · have hkeeps : ∀ t (l l' : Loading), True → loaderStep s.disk paths t l = some l' → True :=
      fun _ _ _ _ _ => trivial
    have hlength := exec_length_le (left paths) (fun _ => 0) hkeeps
      (fun _ _ _ _ hstep => loaderStep_left hstep) trivial hrun
    have hnone : total (fun _ : Nat => 0) loaderTurns = 0 := total_eq_zero _ fun _ _ => rfl
    have hstart : left paths (startLoaders paths) ≤ 2 * paths.length + NUM_INDEXER_THREADS := by
      unfold left startLoaders total
      rw [List.map_replicate, List.sum_replicate_nat, loaderLeft, Nat.mul_one, Nat.sub_zero]
      exact Nat.add_le_add_left (Nat.min_le_right _ _) _
    omega
  · exact loaded_perm inv.tidy hperm hrun hstuck

/-- The program ends while worker 1 writes, and is started again. -/
def exampleTurns : List Turn :=
  let out : ParserOutput := fun _ => none
  [.main out, .work 0 true, .work 1 true, .work 0 true, .cut 1, .stop,
    .main out, .work 1 true, .work 1 true]

theorem restart_is_loaded : ∃ s paths, exec step exampleTurns initial = some s ∧
    s.disk.map DiskFile.path =
      [getIndexChunkPath 0 0, getIndexChunkPath 1 0, getIndexChunkPath 1 1] ∧
    discover s.disk = some paths ∧ paths.Perm (s.disk.map DiskFile.path) := by
  have hrun : exec step exampleTurns initial = some _ := rfl
  obtain ⟨_, _, paths, hpaths, hperm, _⟩ := chunk_files_are_loaded_once hrun (by decide)
  exact ⟨_, paths, hrun, rfl, hpaths, hperm⟩

end seamus.index_directory
