-- The way of the parsed documents through the indexer into the chunks that are loaded: however its
-- workers and the loaders take turns, each document of each parser file is in one loaded chunk.
import Seamus.IndexDirectory
import Seamus.SearchedDocuments
import Mathlib.Algebra.BigOperators.Group.Finset.Piecewise

open interleaving seamus.index seamus.index_file seamus.indexed_documents
  seamus.searched_documents seamus.index_directory

namespace seamus.loaded_documents

/-! ## The parser files and the workers -/

/-- The records in the file of each parser that has one. -/
abbrev ParserRecords := Nat → Option (List Record)

def outputOf (records : ParserRecords) : ParserOutput :=
  fun parser => (records parser).map fun rs => some (fileOf rs)

/-- The records of all parsers, file by file. -/
def allRecords (records : ParserRecords) : List (List Record) :=
  (List.range CRAWLER_THREADPOOL_SIZE).filterMap records

/-- Those of the files that a worker gets. -/
def shareOf (records : ParserRecords) (i : Nat) : List (List Record) :=
  (stripe CRAWLER_THREADPOOL_SIZE i).filterMap records

theorem getFiles_outputOf (records : ParserRecords) (i : Nat) :
    getFiles (outputOf records) i = (shareOf records i).map fun rs => some (fileOf rs) := by
  unfold getFiles outputOf shareOf
  rw [List.map_filterMap]

theorem mem_stripe {turns i parser : Nat} :
    parser ∈ stripe turns i ↔ parser < CRAWLER_THREADPOOL_SIZE ∧
      ∃ k < turns, parser = i + k * NUM_INDEXER_THREADS := by
  induction turns generalizing i with
  | zero => simp [stripe]
  | succ turns ih =>
    rw [stripe]
    split
    · rename_i hlt
      rw [List.mem_cons, ih]
      constructor
      · rintro (rfl | ⟨hparser, k, hk, rfl⟩)
        · exact ⟨hlt, 0, Nat.succ_pos _, by simp⟩
        · exact ⟨hparser, k + 1, by omega, by rw [Nat.add_mul]; omega⟩
      · rintro ⟨hparser, k, hk, rfl⟩
        cases k with
        | zero => exact Or.inl (by simp)
        | succ k => exact Or.inr ⟨hparser, k, by omega, by rw [Nat.add_mul]; omega⟩
    · rename_i hge
      constructor
      · exact fun h => absurd h List.not_mem_nil
      · rintro ⟨hparser, k, _, rfl⟩
        omega

theorem stripe_nodup (turns i : Nat) : (stripe turns i).Nodup := by
  induction turns generalizing i with
  | zero => exact List.nodup_nil
  | succ turns ih =>
    rw [stripe]
    split
    · refine List.nodup_cons.mpr ⟨fun hmem => ?_, ih _⟩
      obtain ⟨_, k, _, heq⟩ := mem_stripe.mp hmem
      have hpos : 0 < NUM_INDEXER_THREADS := by decide
      omega
    · exact List.nodup_nil

/-- Each parser is in the stripe of one worker. -/
theorem stripes_perm : ((List.range NUM_INDEXER_THREADS).flatMap
    (stripe CRAWLER_THREADPOOL_SIZE)).Perm (List.range CRAWLER_THREADPOOL_SIZE) := by
  apply (List.perm_ext_iff_of_nodup _ List.nodup_range).mpr
  · intro parser
    rw [List.mem_flatMap, List.mem_range]
    constructor
    · rintro ⟨i, _, hmem⟩
      exact (mem_stripe.mp hmem).1
    · intro hlt
      have hpos : 0 < NUM_INDEXER_THREADS := by decide
      refine ⟨parser % NUM_INDEXER_THREADS, List.mem_range.mpr (Nat.mod_lt _ hpos),
        mem_stripe.mpr ⟨hlt, parser / NUM_INDEXER_THREADS, ?_, (Nat.mod_add_div' _ _).symm⟩⟩
      exact (Nat.div_le_self _ _).trans_lt hlt
  · apply List.nodup_flatMap.mpr
    refine ⟨fun i _ => stripe_nodup _ _, ?_⟩
    apply List.Pairwise.imp_of_mem _ List.nodup_range
    intro i j hi hj hne parser hmem hmem'
    obtain ⟨_, k, _, heq⟩ := mem_stripe.mp hmem
    obtain ⟨_, m, _, heq'⟩ := mem_stripe.mp hmem'
    apply hne
    rw [← Nat.mod_eq_of_lt (List.mem_range.mp hi), ← Nat.mod_eq_of_lt (List.mem_range.mp hj),
      ← Nat.add_mul_mod_self_right i k, ← Nat.add_mul_mod_self_right j m, ← heq, heq']

theorem shares_perm (records : ParserRecords) :
    ((List.range NUM_INDEXER_THREADS).flatMap (shareOf records)).Perm (allRecords records) := by
  have hshares : (List.range NUM_INDEXER_THREADS).flatMap (shareOf records) =
      ((List.range NUM_INDEXER_THREADS).flatMap
        (stripe CRAWLER_THREADPOOL_SIZE)).filterMap records := by
    unfold shareOf
    rw [List.filterMap_flatMap]
  rw [hshares]
  exact stripes_perm.filterMap records

/-! ## What a worker has before it -/

/-- The turns of the indexer in a worker: the rest of the file that it reads, the files to come and
the last flush. -/
def script (j : Nat) (files : List (List Record)) : List index_file.Turn :=
  List.replicate j (.goOn true) ++ (files.flatMap callOf ++ [.flush true])

theorem reader_of_goOn {opens : Bool} {idx t : Indexer}
    (h : index_file.step (.goOn opens) idx = some t) : ∀ result, idx.reader ≠ .closed result := by
  intro result hclosed
  simp [index_file.step, goOn, hclosed] at h

theorem reader_of_indexFile {file : Option InputFile} {idx t : Indexer}
    (h : index_file.step (.indexFile file) idx = some t) :
    ∃ result, idx.reader = .closed result := by
  cases hreader : idx.reader with
  | closed result => exact ⟨result, rfl⟩
  | header | url | words | ended => cases file <;> simp [index_file.step, hreader] at h

theorem reader_of_flush {opens : Bool} {idx t : Indexer}
    (h : index_file.step (.flush opens) idx = some t) : ∃ result, idx.reader = .closed result := by
  cases hreader : idx.reader with
  | closed result => exact ⟨result, rfl⟩
  | header | url | words | ended => simp [index_file.step, hreader] at h

/-- A worker whose turns lead to `final` takes the first of them. -/
theorem script_step {w : Worker} {final : Indexer} {j : Nat} {files : List (List Record)}
    (hfiles : w.files = files.map fun rs => some (fileOf rs))
    (hrun : exec index_file.step (script j files) w.indexer = some final) :
    ∃ t, index_file.step (nextTurn true w).1 w.indexer = some t ∧
      ((nextTurn true w).2 = true ∧ t = final ∧ (script j files).length = 1 ∨
        (nextTurn true w).2 = false ∧ ∃ j' files',
          filesLeft w = (files'.map fun rs => some (fileOf rs)) ∧
          exec index_file.step (script j' files') t = some final ∧
          (script j files).length = (script j' files').length + 1) := by
  cases j with
  | succ j =>
    obtain ⟨t, ht, hrest⟩ := exec_cons hrun
    have hopen := reader_of_goOn ht
    have hnext : nextTurn true w = (.goOn true, false) := by
      unfold nextTurn
      split
      · rename_i hreader _
        exact absurd hreader (hopen _)
      · rename_i hreader _
        exact absurd hreader (hopen _)
      · rfl
    have hleft : filesLeft w = w.files := by
      unfold filesLeft
      split
      · rename_i hreader
        exact absurd hreader (hopen _)
      · rfl
    rw [hnext, hleft]
    exact ⟨t, ht, Or.inr ⟨rfl, j, files, hfiles, hrest, by simp [script, List.replicate_succ]⟩⟩
  | zero =>
    cases files with
    | nil =>
      obtain ⟨t, ht, hrest⟩ := exec_cons hrun
      obtain ⟨result, hreader⟩ := reader_of_flush ht
      have hnext : nextTurn true w = (.flush true, true) := by
        unfold nextTurn
        rw [hreader, hfiles]
        rfl
      rw [hnext]
      exact ⟨t, ht, Or.inl ⟨rfl, Option.some.inj hrest, rfl⟩⟩
    | cons rs files =>
      obtain ⟨t, ht, hrest⟩ := exec_cons hrun
      obtain ⟨result, hreader⟩ := reader_of_indexFile ht
      have hnext : nextTurn true w = (.indexFile (some (fileOf rs)), false) := by
        unfold nextTurn
        rw [hreader, hfiles]
        rfl
      have hleft : filesLeft w = files.map fun rs => some (fileOf rs) := by
        unfold filesLeft
        rw [hreader, hfiles]
        rfl
      rw [hnext, hleft]
      refine ⟨t, ht, Or.inr ⟨rfl, (rs.map fun r => r.lines.length + 4).sum + 1, files, rfl, ?_, ?_⟩⟩
      · rw [script, ← List.append_assoc]
        exact hrest
      · simp [script, callOf]

theorem files_length_le {turns : List index_file.Turn} {idx final : Indexer}
    (h : exec index_file.step turns idx = some final) : idx.files.length ≤ final.files.length := by
  have hgrows : ∀ turn (t t' : Indexer), idx.files.length ≤ t.files.length →
      index_file.step turn t = some t' → idx.files.length ≤ t'.files.length := by
    intro turn t t' hle hstep
    rcases step_files hstep with ⟨hfiles, _⟩ | ⟨_, file, hfiles, _⟩
    · rwa [hfiles]
    · rw [hfiles, List.length_append]
      exact Nat.le_add_right_of_le hle
  exact exec_preserves hgrows (Nat.le_refl _) h

/-! ## While the workers run -/

/-- The files that a worker has written. -/
def written (w : Worker) : List ChunkFile := if w.phase = .spawned then [] else w.indexer.files

def diskFile (i : Nat) (file : ChunkFile) : DiskFile :=
  ⟨getIndexChunkPath i file.chunk, .whole file⟩

/-- Where a worker is on its way to `final`, and how many turns it has before it. -/
inductive OnItsWay (records : ParserRecords) (final : Indexer) (i : Nat) (w : Worker) : Nat → Prop
  | spawned (hphase : w.phase = .spawned) :
      OnItsWay records final i w ((script 0 (shareOf records i)).length + 1)
  | working {j : Nat} {files : List (List Record)} (hphase : w.phase = .working)
      (hfiles : w.files = files.map fun rs => some (fileOf rs))
      (hrun : exec index_file.step (script j files) w.indexer = some final) :
      OnItsWay records final i w (script j files).length
  | returned (hphase : w.phase = .returned) (hfinal : w.indexer = final) :
      OnItsWay records final i w 0

/-- The turns of all workers. -/
def allTurns (records : ParserRecords) : Nat :=
  ∑ i ∈ Finset.range NUM_INDEXER_THREADS, ((script 0 (shareOf records i)).length + 1)

structure Indexing (records : ParserRecords) (final : Nat → Indexer) (n : Nat) (s : System) :
    Prop where
  inv : Inv s
  out : s.out = outputOf records
  numbered : ∀ (i : Nat) (w : Worker), s.workers[i]? = some w →
    NumberedTo s.disk i (written w).length
  disk : ∀ f, f ∈ s.disk ↔ ∃ (i : Nat) (w : Worker) (file : ChunkFile),
    s.workers[i]? = some w ∧ file ∈ written w ∧ f = diskFile i file
  progress : ∃ left : Nat → Nat,
    (∀ (i : Nat) (w : Worker), s.workers[i]? = some w → OnItsWay records (final i) i w (left i)) ∧
    n + ∑ i ∈ Finset.range NUM_INDEXER_THREADS, left i = allTurns records

/-- What the workers come to when nothing interferes. -/
def Leads (records : ParserRecords) (final : Nat → Indexer) : Prop :=
  ∀ i < NUM_INDEXER_THREADS,
    exec index_file.step (script 0 (shareOf records i)) (index_file.start 0) = some (final i) ∧
    (final i).files.length < 2 ^ 32

theorem numberedTo_unique {disk : List DiskFile} {i n m : Nat} (hn : NumberedTo disk i n)
    (hm : NumberedTo disk i m) : n = m := by
  have hle {a b : Nat} (ha : NumberedTo disk i a) (hb : NumberedTo disk i b) : a ≤ b := by
    by_contra hlt
    have hb32 : b < 2 ^ 32 := (Nat.lt_of_not_le hlt).trans_le ha.1
    exact Nat.lt_irrefl b ((hb.2 b hb32).mp ((ha.2 b hb32).mpr (Nat.lt_of_not_le hlt)))
  exact Nat.le_antisymm (hle hn hm) (hle hm hn)

section Running

variable {records : ParserRecords} {final : Nat → Indexer} {n i : Nat} {s : System} {w w' : Worker}

theorem Indexing.lt (h : Indexing records final n s) (hw : s.workers[i]? = some w) :
    i < NUM_INDEXER_THREADS := by
  rw [← h.inv.length]
  exact (List.getElem?_eq_some_iff.mp hw).1

/-- A worker goes on, with a new file or without. -/
theorem Indexing.advance (h : Indexing records final n s) (hw : s.workers[i]? = some w)
    {new : List ChunkFile} (hwritten : written w' = written w ++ new)
    (hnew : ∀ file ∈ new, new = [file] ∧ file.chunk = (written w).length ∧ file.chunk < 2 ^ 32)
    {left : Nat → Nat} {left' : Nat}
    (hways : ∀ (j : Nat) (v : Worker), s.workers[j]? = some v →
      OnItsWay records (final j) j v (left j))
    (hsum : n + ∑ j ∈ Finset.range NUM_INDEXER_THREADS, left j = allTurns records)
    (hleft : left i = left' + 1) (hway : OnItsWay records (final i) i w' left')
    (hinv : Inv { s with
      workers := s.workers.set i w'
      disk := s.disk ++ new.map (diskFile i) }) :
    Indexing records final (n + 1) { s with
      workers := s.workers.set i w'
      disk := s.disk ++ new.map (diskFile i) } where
  inv := hinv
  out := h.out
  numbered j v hv := by
    rcases getElem?_set_cases hv with ⟨rfl, rfl⟩ | ⟨hne, hold⟩
    · have hown := h.numbered j w hw
      cases new with
      | nil =>
        rw [List.append_nil] at hwritten
        rw [hwritten, List.map_nil, List.append_nil]
        exact hown
      | cons file rest =>
        obtain ⟨hone, hchunk, hlt⟩ := hnew file List.mem_cons_self
        rw [hone, List.map_singleton, hwritten, hone, List.length_append, List.length_singleton,
          ← hchunk]
        rw [← hchunk] at hown
        exact hown.write (h.lt hw) hlt
    · have hother := h.numbered j v hold
      cases new with
      | nil =>
        rw [List.map_nil, List.append_nil]
        exact hother
      | cons file rest =>
        obtain ⟨hone, _, hlt⟩ := hnew file List.mem_cons_self
        rw [hone, List.map_singleton]
        exact hother.other hne (h.lt hw) (h.lt hold) hlt
  disk f := by
    rw [List.mem_append, h.disk, List.mem_map]
    constructor
    · rintro (⟨j, v, file, hv, hfile, rfl⟩ | ⟨file, hfile, rfl⟩)
      · by_cases hji : j = i
        · subst hji
          rw [hw] at hv
          cases hv
          refine ⟨j, w', file, List.getElem?_set_self (List.getElem?_eq_some_iff.mp hw).1, ?_, rfl⟩
          rw [hwritten]
          exact List.mem_append_left _ hfile
        · exact ⟨j, v, file, (List.getElem?_set_ne (Ne.symm hji)).trans hv, hfile, rfl⟩
      · refine ⟨i, w', file, List.getElem?_set_self (List.getElem?_eq_some_iff.mp hw).1, ?_, rfl⟩
        rw [hwritten]
        exact List.mem_append_right _ hfile
    · rintro ⟨j, v, file, hv, hfile, rfl⟩
      rcases getElem?_set_cases hv with ⟨rfl, rfl⟩ | ⟨_, hold⟩
      · rw [hwritten] at hfile
        rcases List.mem_append.mp hfile with hfile | hfile
        · exact Or.inl ⟨j, w, file, hw, hfile, rfl⟩
        · exact Or.inr ⟨file, hfile, rfl⟩
      · exact Or.inl ⟨j, v, file, hold, hfile, rfl⟩
  progress := by
    have hi : i ∈ Finset.range NUM_INDEXER_THREADS := Finset.mem_range.mpr (h.lt hw)
    refine ⟨Function.update left i left', fun j v hv => ?_, ?_⟩
    · rcases getElem?_set_cases hv with ⟨rfl, rfl⟩ | ⟨hne, hold⟩
      · rwa [Function.update_self]
      · rw [Function.update_of_ne hne]
        exact hways j v hold
    · rw [Finset.sum_eq_add_sum_sdiff_singleton_of_mem hi, hleft] at hsum
      rw [Finset.sum_update_of_mem hi]
      omega

theorem written_working (hphase : w.phase = .working) : written w = w.indexer.files :=
  if_neg (by rw [hphase]; decide)

/-- A worker on its way finds the name of its next file free. -/
theorem Indexing.opens (h : Indexing records final n s) (hleads : Leads records final)
    (hw : s.workers[i]? = some w) (hphase : w.phase = .working) {turns : List index_file.Turn}
    (hrun : exec index_file.step turns w.indexer = some (final i)) :
    opensFile true i w.indexer s.disk = true ∧ w.indexer.mem.chunk = w.indexer.files.length ∧
      w.indexer.files.length < 2 ^ 32 := by
  have hnumbered := h.numbered i w hw
  rw [written_working hphase] at hnumbered
  have hfew := (files_length_le hrun).trans_lt (hleads i (h.lt hw)).2
  obtain ⟨m, hm, hchunk⟩ := h.inv.working i w hw hphase
  rw [numberedTo_unique hm hnumbered] at hchunk
  exact ⟨hnumbered.opensFile hfew hchunk, by rw [hchunk, u32_of_lt hfew], hfew⟩

/-- A turn of the indexer writes one file or none. -/
theorem exists_newFiles (i : Nat) {turn : index_file.Turn} {idx t : Indexer}
    (h : index_file.step turn idx = some t) :
    ∃ new, t.files = idx.files ++ new ∧ newFiles i idx t = new.map (diskFile i) ∧
      ∀ file ∈ new, new = [file] ∧ file.chunk = idx.mem.chunk := by
  obtain ⟨new, hnew, hfile⟩ : ∃ new, t.files = idx.files ++ new ∧ ∀ file ∈ new,
      new = [file] ∧ file.chunk = idx.mem.chunk := by
    rcases step_files h with ⟨hsame, _⟩ | ⟨_, file, happend, hchunk, _⟩
    · exact ⟨[], by rw [hsame, List.append_nil], fun _ hmem => absurd hmem List.not_mem_nil⟩
    · refine ⟨[file], happend, fun x hx => ?_⟩
      rw [List.mem_singleton.mp hx]
      exact ⟨rfl, hchunk⟩
  refine ⟨new, hnew, ?_, hfile⟩
  unfold newFiles
  rw [hnew, List.drop_left]
  rfl

theorem indexing_step {opens : Bool} {s' : System} (hleads : Leads records final)
    (h : Indexing records final n s) (hopens : opens = true)
    (hstep : index_directory.step (.work i opens) s = some s') :
    Indexing records final (n + 1) s' := by
  have hinv : Inv s' := inv_step h.inv hstep
  rw [hopens] at hstep
  change workerStep i true s = some s' at hstep
  unfold workerStep at hstep
  cases hw : s.workers[i]? with
  | none =>
    rw [hw] at hstep
    cases hstep
  | some w =>
    obtain ⟨left, hways, hsum⟩ := h.progress
    have hi := h.lt hw
    simp only [hw] at hstep
    generalize hleft : left i = m at *
    have hway := hways i w hw
    rw [hleft] at hway
    cases hway with
    | returned hphase hfinal =>
      simp only [hphase] at hstep
      cases hstep
    | spawned hphase =>
      simp only [hphase] at hstep
      obtain ⟨chunk, hchunk, rfl⟩ := Option.map_eq_some_iff.mp hstep
      have hnone : NumberedTo s.disk i 0 := by
        have hnumbered := h.numbered i w hw
        rwa [written, if_pos hphase] at hnumbered
      obtain ⟨_, rfl⟩ := firstMissing_eq hnone (by decide) (Nat.zero_le 0) hchunk
      have hnothing : written ⟨.working, index_file.start 0, getFiles s.out i⟩ =
          written w ++ [] := by
        simp [written, hphase, index_file.start]
      have hadvance := h.advance hw hnothing (by simp) hways hsum hleft
        (.working rfl (by rw [h.out, getFiles_outputOf]) (hleads i hi).1)
      simp only [List.map_nil, List.append_nil] at hadvance
      exact hadvance hinv
    | @working j files hphase hfiles hrun =>
      simp only [hphase] at hstep
      obtain ⟨hopen, hchunk, hfew⟩ := h.opens hleads hw hphase hrun
      obtain ⟨t, ht, hnext⟩ := script_step hfiles hrun
      rw [hopen, ht, Option.map_some] at hstep
      cases hstep
      obtain ⟨new, hnew, hfiles', hfile⟩ := exists_newFiles i ht
      rw [hfiles'] at hinv ⊢
      have hwritten := written_working hphase
      have hone : ∀ file ∈ new, new = [file] ∧ file.chunk = (written w).length ∧
          file.chunk < 2 ^ 32 := by
        intro file hmem
        obtain ⟨hsingle, hown⟩ := hfile file hmem
        rw [hown, hchunk, hwritten]
        exact ⟨hsingle, rfl, hfew⟩
      rcases hnext with ⟨hlast, rfl, hlength⟩ | ⟨hgoes, j', files', hleft', hrun', hlength⟩
      · rw [hlast] at hinv ⊢
        exact h.advance hw (by rw [hwritten]; exact hnew) hone hways hsum (hleft.trans hlength)
          (.returned rfl rfl) hinv
      · rw [hgoes] at hinv ⊢
        exact h.advance hw (by rw [hwritten]; exact hnew) hone hways hsum (hleft.trans hlength)
          (.working rfl hleft' hrun') hinv

theorem indexing_start {s : System}
    (h : index_directory.step (.main (outputOf records)) initial = some s) :
    Indexing records final 0 s := by
  have hinv : Inv s := inv_step inv_initial h
  have hoff : ∀ w ∈ initial.workers, w.phase = .off :=
    fun w hw => by rw [List.eq_of_mem_replicate hw]
  simp only [index_directory.step, if_pos hoff] at h
  cases h
  have hspawned {j : Nat} {v : Worker}
      (hv : (setPhases .spawned { initial with out := outputOf records }).workers[j]? = some v) :
      v.phase = .spawned := by
    obtain ⟨u, _, rfl⟩ := List.mem_map.mp (List.mem_of_getElem? hv)
    rfl
  refine ⟨hinv, rfl, fun j v hv => ?_, fun f => ?_,
    fun j => (script 0 (shareOf records j)).length + 1, fun j v hv => .spawned (hspawned hv),
    Nat.zero_add _⟩
  · rw [written, if_pos (hspawned hv)]
    exact ⟨Nat.zero_le _, fun c _ => by simp [setPhases, initial, fileExists]⟩
  · constructor
    · exact fun hf => absurd hf List.not_mem_nil
    · rintro ⟨j, v, file, hv, hfile, _⟩
      rw [written, if_pos (hspawned hv)] at hfile
      exact absurd hfile List.not_mem_nil

/-- A worker that cannot go on has returned. -/
theorem Indexing.returned (h : Indexing records final n s) (hleads : Leads records final)
    (hw : s.workers[i]? = some w) (hstuck : index_directory.step (.work i true) s = none) :
    w.phase = .returned ∧ w.indexer = final i := by
  change workerStep i true s = none at hstuck
  unfold workerStep at hstuck
  simp only [hw] at hstuck
  obtain ⟨left, hways, _⟩ := h.progress
  have hway := hways i w hw
  generalize left i = m at hway
  cases hway with
  | returned hphase hfinal => exact ⟨hphase, hfinal⟩
  | spawned hphase =>
    simp only [hphase] at hstuck
    have hnumbered := h.numbered i w hw
    rw [written, if_pos hphase] at hnumbered
    rw [firstMissing_of_numbered hnumbered (by decide) (Nat.le_refl 0)
      (by rw [List.length_nil]; omega)] at hstuck
    cases hstuck
  | @working j files hphase hfiles hrun =>
    simp only [hphase] at hstuck
    obtain ⟨t, ht, _⟩ := script_step hfiles hrun
    rw [(h.opens hleads hw hphase hrun).1, ht] at hstuck
    cases hstuck

/-- The files on the disk when all workers have returned. -/
theorem Indexing.disk_perm (h : Indexing records final n s) (hleads : Leads records final)
    (hnumbers : ∀ i < NUM_INDEXER_THREADS,
      (final i).files.map ChunkFile.chunk = List.range (final i).files.length)
    (hstuck : ∀ i, index_directory.step (.work i true) s = none) :
    s.disk.Perm ((List.range NUM_INDEXER_THREADS).flatMap fun i =>
      (final i).files.map (diskFile i)) := by
  have hpaths : ((List.range NUM_INDEXER_THREADS).flatMap fun i =>
      (final i).files.map (diskFile i)).map DiskFile.path =
        pathsBelow (fun i => (final i).files.length) (List.range NUM_INDEXER_THREADS) := by
    rw [List.map_flatMap]
    apply List.flatMap_congr
    intro i hi
    rw [← hnumbers i (List.mem_range.mp hi), List.map_map, List.map_map]
    rfl
  apply (List.perm_ext_iff_of_nodup (List.Nodup.of_map _ h.inv.tidy.nodup) _).mpr
  · intro f
    rw [h.disk, List.mem_flatMap]
    constructor
    · rintro ⟨i, w, file, hw, hfile, rfl⟩
      obtain ⟨hphase, hfinal⟩ := h.returned hleads hw (hstuck i)
      rw [written, if_neg (by rw [hphase]; decide), hfinal] at hfile
      exact ⟨i, List.mem_range.mpr (h.lt hw), List.mem_map_of_mem hfile⟩
    · rintro ⟨i, hi, hf⟩
      obtain ⟨file, hfile, rfl⟩ := List.mem_map.mp hf
      have hlt : i < s.workers.length := by
        rw [h.inv.length]
        exact List.mem_range.mp hi
      have hw := List.getElem?_eq_getElem hlt
      obtain ⟨hphase, hfinal⟩ := h.returned hleads hw (hstuck i)
      refine ⟨i, _, file, hw, ?_, rfl⟩
      rw [written, if_neg (by rw [hphase]; decide), hfinal]
      exact hfile
  · apply List.Nodup.of_map DiskFile.path
    rw [hpaths]
    apply pathsBelow_nodup List.nodup_range
    exact fun i hi => ⟨List.mem_range.mp hi, (hleads i (List.mem_range.mp hi)).2.le⟩

end Running

/-! ## What the workers come to -/

theorem share_subperm (records : ParserRecords) (i : Nat) :
    (shareOf records i).Subperm (allRecords records) := by
  have hsub : stripe CRAWLER_THREADPOOL_SIZE i ⊆ List.range CRAWLER_THREADPOOL_SIZE :=
    fun parser hmem => List.mem_range.mpr (mem_stripe.mp hmem).1
  obtain ⟨parsers, hperm, hsublist⟩ := List.subperm_of_subset (stripe_nodup _ _) hsub
  exact ⟨parsers.filterMap records, hperm.filterMap records, hsublist.filterMap records⟩

theorem length_flatten_share_le (records : ParserRecords) (i : Nat) :
    (shareOf records i).flatten.length ≤ (allRecords records).flatten.length := by
  obtain ⟨share, hperm, hsub⟩ := share_subperm records i
  rw [← hperm.flatten.length_eq]
  exact hsub.flatten.length_le

theorem length_le_of_full {parts : List (List Document)} (hfull : ∀ part ∈ parts, IsFull part) :
    parts.length ≤ parts.flatten.length := by
  induction parts with
  | nil => exact Nat.le_refl 0
  | cons part parts ih =>
    obtain ⟨hpart, hparts⟩ := List.forall_mem_cons.mp hfull
    have hpos : 0 < part.length := by
      apply List.length_pos_iff.mpr
      rintro rfl
      exact not_isFull_nil hpart
    have hrest := ih hparts
    rw [List.flatten_cons, List.length_append, List.length_cons]
    omega

/-- What the workers come to: the files of each are the indexes of its documents, in order. -/
structure Finishes (records : ParserRecords) (final : Nat → Indexer)
    (parts : Nat → List (List Document)) : Prop where
  leads : Leads records final
  count : ∀ i, (final i).files.length ≤ (shareOf records i).flatten.length + 1
  numbers : ∀ i, (final i).files.map ChunkFile.chunk = List.range (final i).files.length
  docs : ∀ i, (parts i).flatten = (shareOf records i).flatten.map Record.document
  files : ∀ i, List.Forall₂ (fun file part => IndexOf file.urls file.index part) (final i).files
    (parts i)

theorem exists_finishes {records : ParserRecords}
    (hrecords : ∀ rs ∈ allRecords records, ∀ r ∈ rs, IsRecord r)
    (hfew : (allRecords records).flatten.length + NUM_INDEXER_THREADS < 2 ^ 32) :
    ∃ final parts, Finishes records final parts := by
  have hpositive : 0 < NUM_INDEXER_THREADS := by decide
  have hshare (i : Nat) := length_flatten_share_le records i
  have hown (i : Nat) : ∀ r ∈ (shareOf records i).flatten, IsRecord r := by
    intro r hr
    obtain ⟨rs, hrs, hmem⟩ := List.mem_flatten.mp hr
    exact hrecords rs ((share_subperm records i).subset hrs) r hmem
  choose final parts last hrun hdocs hsaved using fun i =>
    exec_files 0 (shareOf records i) (hown i) (by have := hshare i; omega)
  have hlength (i : Nat) : (final i).files.length = (parts i).length + 1 := by
    have hnumbers := congrArg List.length (hsaved i).numbers
    rwa [List.length_map, List.length_range'] at hnumbers
  have hparts (i : Nat) : (parts i).length ≤ (shareOf records i).flatten.length := by
    have hfull := length_le_of_full fun part hpart => ((hsaved i).full part hpart).1
    have hall := congrArg List.length (hdocs i)
    rw [List.length_append, List.length_map] at hall
    omega
  refine ⟨final, fun i => parts i ++ [last i], fun i _ => ⟨hrun i, ?_⟩, fun i => ?_, fun i => ?_,
    fun i => ?_, fun i => (hsaved i).files⟩
  · have := hshare i
    have := hparts i
    rw [hlength i]
    omega
  · rw [hlength i]
    exact Nat.succ_le_succ (hparts i)
  · rw [(hsaved i).numbers, hlength i, List.range_eq_range']
  · rw [List.flatten_append, List.flatten_singleton, hdocs i]

/-- A chunk was loaded from a file that has the index of these documents, and whose bytes, where
the format has room for them, answer the queries for them. -/
def IsChunkOf (chunk : Option Content) (docs : List Document) : Prop :=
  ∃ file, chunk = some (.whole file) ∧ IndexOf file.urls file.index docs ∧
    (Searchable docs → Answers file docs)

section Finished

variable {records : ParserRecords} {final : Nat → Indexer} {parts : Nat → List (List Document)}

/-- The files of some workers are not many more than their documents. -/
theorem Finishes.length_files_le (h : Finishes records final parts) (workers : List Nat) :
    (workers.flatMap fun i => (final i).files.map (diskFile i)).length ≤
      (workers.flatMap (shareOf records)).flatten.length + workers.length := by
  induction workers with
  | nil => exact Nat.le_refl 0
  | cons i workers ih =>
    have hi := h.count i
    rw [List.flatMap_cons, List.flatMap_cons, List.flatten_append, List.length_append,
      List.length_append, List.length_map, List.length_cons]
    omega

theorem Finishes.documents (h : Finishes records final parts) (workers : List Nat) :
    (workers.flatMap parts).flatten =
      (workers.flatMap (shareOf records)).flatten.map Record.document := by
  induction workers with
  | nil => rfl
  | cons i workers ih =>
    rw [List.flatMap_cons, List.flatMap_cons, List.flatten_append, List.flatten_append, ih,
      h.docs i, List.map_append]

theorem Finishes.chunks (h : Finishes records final parts) (workers : List Nat) :
    List.Forall₂ IsChunkOf
      ((workers.flatMap fun i => (final i).files.map (diskFile i)).map fun f => some f.content)
      (workers.flatMap parts) := by
  induction workers with
  | nil => exact .nil
  | cons i workers ih =>
    rw [List.flatMap_cons, List.flatMap_cons, List.map_append, List.map_map]
    apply List.rel_append _ ih
    rw [List.forall₂_map_left_iff]
    exact (h.files i).imp fun file part hindex => ⟨file, rfl, hindex, answers_of_indexOf hindex⟩

end Finished

/-- The work of the indexer comes to an end, however its workers take turns, and then each document
of each parser file is in the index of one chunk that an `IndexManager` loads. -/
theorem parsed_documents_are_loaded (records : ParserRecords)
    (hrecords : ∀ rs ∈ allRecords records, ∀ r ∈ rs, IsRecord r)
    (hfew : (allRecords records).flatten.length + NUM_INDEXER_THREADS < 2 ^ 32)
    {turns : List Nat} {s : System}
    (h : exec index_directory.step
      (.main (outputOf records) :: turns.map fun i => .work i true) initial = some s) :
    turns.length ≤ allTurns records ∧
    ((∀ i, index_directory.step (.work i true) s = none) →
      ∃ paths, discover s.disk = some paths ∧ ∀ loaderTurns l,
        exec (loaderStep s.disk paths) loaderTurns (startLoaders paths) = some l →
        (∀ t, loaderStep s.disk paths t l = none) →
          ∃ parts : List (List Document),
            parts.flatten.Perm ((allRecords records).flatten.map Record.document) ∧
            List.Forall₂ IsChunkOf l.chunkManagers parts) := by
  obtain ⟨final, parts, hfinishes⟩ := exists_finishes hrecords hfew
  have hshares := (shares_perm records).flatten
  obtain ⟨t, ht, hrest⟩ := exec_cons h
  rw [exec_map] at hrest
  have hindexing : Indexing records final (0 + turns.length) s :=
    exec_counts (fun n i t t' ht hstep => indexing_step hfinishes.leads ht rfl hstep)
      (indexing_start ht) hrest
  refine ⟨?_, fun hstuck => ?_⟩
  · obtain ⟨left, _, hsum⟩ := hindexing.progress
    omega
  have hdisk := hindexing.disk_perm hfinishes.leads (fun i _ => hfinishes.numbers i) hstuck
  have hroom : s.disk.length < 2 ^ 32 := by
    have hle := hfinishes.length_files_le (List.range NUM_INDEXER_THREADS)
    rw [← hdisk.length_eq, hshares.length_eq, List.length_range] at hle
    omega
  obtain ⟨paths, hpaths, hperm⟩ := discover_eq hindexing.inv.tidy hroom
  refine ⟨paths, hpaths, fun loaderTurns l hloaders hended => ?_⟩
  have hloaded := (loaded_perm hindexing.inv.tidy hperm hloaders hended).trans
    (hdisk.map fun f => some f.content)
  obtain ⟨loadedParts, hrel, hpartsPerm⟩ :=
    List.perm_comp_forall₂ hloaded (hfinishes.chunks (List.range NUM_INDEXER_THREADS))
  refine ⟨loadedParts, hpartsPerm.flatten.trans ?_, hrel⟩
  rw [hfinishes.documents]
  exact hshares.map _

/-- The parsers 5 and 6 have left a file each. -/
def twoParsers : ParserRecords := fun parser =>
  if parser = 5 ∨ parser = 6 then some [shortRecord] else none

/-- Four workers and four loaders, in turns. -/
theorem twoParsers_are_loaded :
    let turns := [0, 1, 1, 2, 0] ++ List.replicate 10 1 ++ [3, 2, 1, 3] ++ List.replicate 11 2
    let loaderTurns := [3, 0, 1, 2, 2, 0, 1, 3, 0, 1, 2, 3]
    ∃ s paths l parts, exec index_directory.step
        (.main (outputOf twoParsers) :: turns.map fun i => .work i true) initial = some s ∧
      turns.length ≤ allTurns twoParsers ∧ discover s.disk = some paths ∧
      exec (loaderStep s.disk paths) loaderTurns (startLoaders paths) = some l ∧
      parts.flatten.Perm [⟨[117], [[97], [98]]⟩, ⟨[117], [[97], [98]]⟩] ∧
      List.Forall₂ IsChunkOf l.chunkManagers parts := by
  intro turns loaderTurns
  have hall : allRecords twoParsers = [[shortRecord], [shortRecord]] := by decide +kernel
  have hrecord : IsRecord shortRecord := by
    refine ⟨by decide, by decide +kernel, by decide, ?_, by decide⟩
    simp only [shortRecord, List.forall_mem_cons]
    refine ⟨?_, ?_, ?_, ?_, ?_, fun _ h => absurd h List.not_mem_nil⟩ <;>
      exact ⟨by decide, by decide, by decide⟩
  have hrun : exec index_directory.step
      (.main (outputOf twoParsers) :: turns.map fun i => .work i true) initial = some _ := rfl
  have hloaded := parsed_documents_are_loaded twoParsers (by rw [hall]; simp [hrecord])
    (by rw [hall]; decide) hrun
  obtain ⟨paths, hpaths, hparts⟩ := hloaded.2 fun i => by
    rcases i with _ | _ | _ | _ | i <;> rfl
  obtain rfl : paths = [getIndexChunkPath 0 0, getIndexChunkPath 1 0, getIndexChunkPath 2 0,
    getIndexChunkPath 3 0] := Option.some.inj (hpaths.symm.trans rfl)
  obtain ⟨parts, hdocs, hchunks⟩ := hparts loaderTurns _ rfl fun t => by
    rcases t with _ | _ | _ | _ | t <;> rfl
  rw [hall] at hdocs
  exact ⟨_, _, _, parts, hrun, hloaded.1, hpaths, rfl, hdocs, hchunks⟩

end seamus.loaded_documents
