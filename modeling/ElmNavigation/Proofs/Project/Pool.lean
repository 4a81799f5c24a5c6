import ElmNavigation.Proofs.Project.Resolution
import Mathlib.Logic.Relation

/-! Reading the files of a project with several workers at once. The files wait in a queue; a worker takes
the next one, reads it and sends its record, and leaves when it finds the queue empty. Which worker acts
next is up to the schedule, and so is the order in which records arrive. What is invariant is that every
file waits, is in a worker's hands or has its record sent; so when all workers have left, the records that
arrived are those of the files, and putting them in the order of their paths makes all schedules alike. -/

namespace ElmNavigation

/-- What a worker is doing. -/
inductive Worker where
  | idle
  | reading (file : SourceFile)
  | left
  deriving DecidableEq, Repr

namespace Worker

/-- The file in a worker's hands. -/
def file? : Worker → Option SourceFile
  | reading file => some file
  | idle | left => none

end Worker

/-- Workers between the queue of files and the records that they have sent. -/
structure Pool where
  queue : List SourceFile
  workers : List Worker
  records : List FileRecord
  deriving DecidableEq, Repr

namespace Pool

/-- All files wait before the given number of workers. No one adds to the queue later. -/
def start (files : List SourceFile) (workers : Nat) : Pool :=
  ⟨files, List.replicate workers .idle, []⟩

/-- One worker acts. A file without a record is left out. -/
inductive Step : Pool → Pool → Prop where
  | take {file : SourceFile} {queue : List SourceFile} {before after : List Worker}
      {records : List FileRecord} :
      Step ⟨file :: queue, before ++ .idle :: after, records⟩
        ⟨queue, before ++ .reading file :: after, records⟩
  | send {file : SourceFile} {queue : List SourceFile} {before after : List Worker}
      {records : List FileRecord} :
      Step ⟨queue, before ++ .reading file :: after, records⟩
        ⟨queue, before ++ .idle :: after, records ++ (FileRecord.ofSource? file).toList⟩
  | leave {before after : List Worker} {records : List FileRecord} :
      Step ⟨[], before ++ .idle :: after, records⟩ ⟨[], before ++ .left :: after, records⟩

/-- Workers act one after the other, in any order. -/
def Run : Pool → Pool → Prop :=
  Relation.ReflTransGen Step

/-- All workers have left. -/
def Finished (pool : Pool) : Prop :=
  ∀ worker ∈ pool.workers, worker = .left

/-- The records that were sent, in the order of their paths. -/
def collected (pool : Pool) : List FileRecord :=
  pool.records.mergeSort FileRecord.le

/-- The files that workers have in their hands. -/
def inHands (pool : Pool) : List SourceFile :=
  pool.workers.filterMap Worker.file?

/-! ### No file is lost -/

/-- Every file waits, is in a worker's hands or has its record sent, and workers leave only after the last
file was taken. -/
structure Accounts (files : List SourceFile) (crew : Nat) (pool : Pool) : Prop where
  records : ((pool.queue ++ pool.inHands).filterMap FileRecord.ofSource? ++ pool.records).Perm
    (files.filterMap FileRecord.ofSource?)
  drained (h : .left ∈ pool.workers) : pool.queue = []
  crew : pool.workers.length = crew

theorem inHands_split (queue : List SourceFile) (before after : List Worker) (worker : Worker)
    (records : List FileRecord) : (Pool.mk queue (before ++ worker :: after) records).inHands =
      before.filterMap Worker.file? ++ (worker.file?.toList ++ after.filterMap Worker.file?) := by
  rw [inHands, List.filterMap_append, List.filterMap_cons]
  cases worker.file? <;> rfl

theorem perm_taken (file : SourceFile) (queue before after : List SourceFile) :
    (queue ++ (before ++ file :: after)).Perm (file :: (queue ++ (before ++ after))) := by
  rw [← List.append_assoc, ← List.append_assoc]
  exact List.perm_middle

theorem accounts_start (files : List SourceFile) (workers : Nat) :
    Accounts files workers (start files workers) where
  records := by
    have hidle : (start files workers).inHands = [] := by
      rw [inHands, start, List.filterMap_replicate]
      rfl
    rw [hidle, start, List.append_nil, List.append_nil]
  drained h := by cases List.eq_of_mem_replicate h
  crew := List.length_replicate

/-- What one worker does keeps the account. -/
theorem Step.accounts {files : List SourceFile} {crew : Nat} {pool next : Pool} (h : Step pool next)
    (haccounts : Accounts files crew pool) : Accounts files crew next := by
  obtain ⟨hrecords, hdrained, hcrew⟩ := haccounts
  cases h with
  | @take file queue before after records =>
      rw [inHands_split] at hrecords
      refine ⟨?_, ?_, ?_⟩
      · rw [inHands_split]
        exact ((perm_taken file queue _ _).filterMap _).append_right records |>.trans hrecords
      · intro hleft
        refine absurd (hdrained ?_) (List.cons_ne_nil file queue)
        simpa using hleft
      · simpa using hcrew
  | @send file queue before after records =>
      rw [inHands_split] at hrecords
      refine ⟨?_, ?_, ?_⟩
      · rw [inHands_split]
        have htaken :=
          (perm_taken file queue (before.filterMap Worker.file?) (after.filterMap Worker.file?)).symm
        refine List.Perm.trans ?_ (((htaken.filterMap _).append_right records).trans hrecords)
        rw [List.filterMap_cons_some (SourceFile.ofSource?_eq file), SourceFile.ofSource?_eq,
          ← List.append_assoc]
        exact List.perm_append_singleton _ _
      · intro hleft
        refine hdrained ?_
        simpa using hleft
      · simpa using hcrew
  | leave =>
      rw [inHands_split] at hrecords
      refine ⟨?_, fun _ => rfl, ?_⟩
      · rw [inHands_split]
        exact hrecords
      · simpa using hcrew

/-- The account is kept through every run. -/
theorem Run.accounts {files : List SourceFile} {crew : Nat} {pool next : Pool} (h : Run pool next)
    (haccounts : Accounts files crew pool) : Accounts files crew next := by
  induction h with
  | refl => exact haccounts
  | tail _ hstep ih => exact hstep.accounts ih

theorem perm_records_of_finished {files : List SourceFile} {workers : Nat} (hworkers : 0 < workers)
    {pool : Pool} (hrun : Run (start files workers) pool) (hfinished : pool.Finished) :
    pool.records.Perm (files.filterMap FileRecord.ofSource?) := by
  obtain ⟨hrecords, hdrained, hcrew⟩ := hrun.accounts (accounts_start files workers)
  have hleft : Worker.left ∈ pool.workers := by
    obtain ⟨worker, hmem⟩ := List.exists_mem_of_length_pos (by rw [hcrew]; exact hworkers)
    rwa [← hfinished worker hmem]
  have hhands : pool.inHands = [] := by
    rw [inHands, List.filterMap_eq_nil_iff]
    intro worker hmem
    rw [hfinished worker hmem]
    rfl
  rwa [hdrained hleft, hhands] at hrecords

/-! ### Every schedule comes to an end -/

/-- The number of steps that are left: two for a file that waits, one for a file in a worker's hands and
one for a worker that has not left. -/
def remaining (pool : Pool) : Nat :=
  2 * pool.queue.length + pool.inHands.length + pool.workers.countP (· ≠ .left)

theorem Step.remaining_eq {pool next : Pool} (h : Step pool next) : pool.remaining = next.remaining + 1 := by
  cases h <;> simp only [remaining, inHands_split, List.length_append, List.length_cons, List.countP_append,
    List.countP_cons, Worker.file?, Option.toList, List.length_nil] <;> simp <;> omega

theorem wellFounded_step : WellFounded fun next pool => Step pool next := by
  refine Subrelation.wf (fun {next pool} hstep => ?_) (measure remaining).wf
  show next.remaining < pool.remaining
  rw [hstep.remaining_eq]
  exact Nat.lt_succ_self _

/-- As long as a worker has not left, one can act. -/
theorem finished_or_step (pool : Pool) : pool.Finished ∨ ∃ next, Step pool next := by
  by_cases hfinished : pool.Finished
  · exact .inl hfinished
  · right
    obtain ⟨queue, workers, records⟩ := pool
    obtain ⟨worker, hmem, hworker⟩ : ∃ worker ∈ workers, worker ≠ .left := by
      simpa [Finished] using hfinished
    obtain ⟨before, after, rfl⟩ := List.append_of_mem hmem
    cases worker with
    | idle =>
        cases queue with
        | nil => exact ⟨_, .leave⟩
        | cons file queue => exact ⟨_, .take⟩
    | reading file => exact ⟨_, .send⟩
    | left => exact absurd rfl hworker

end Pool

/-! ### Records in order -/

section

variable {files : List SourceFile}
  (hdistinct : files.Pairwise fun left right => left.path.same right.path = false)

include hdistinct

theorem eq_of_le_of_le_records {left right : FileRecord} (hleft : left ∈ files.filterMap FileRecord.ofSource?)
    (hright : right ∈ files.filterMap FileRecord.ofSource?) (hle : left.path.le right.path = true)
    (hge : right.path.le left.path = true) : left = right := by
  obtain ⟨file, hfile, hrecord⟩ := List.mem_filterMap.mp hleft
  obtain ⟨file', hfile', hrecord'⟩ := List.mem_filterMap.mp hright
  rw [SourceFile.ofSource?_eq, Option.some.injEq] at hrecord hrecord'
  subst hrecord hrecord'
  rw [eq_of_same_path hdistinct hfile hfile' (Path.same_of_le_of_le hle hge)]

/-- Records of different files have one order only. -/
theorem mergeSort_records_eq {records : List FileRecord}
    (h : records.Perm (files.filterMap FileRecord.ofSource?)) :
    records.mergeSort FileRecord.le = indexFiles files := by
  have hperm : (records.mergeSort FileRecord.le).Perm (indexFiles files) :=
    (List.mergeSort_perm _ _).trans (h.trans (List.mergeSort_perm _ _).symm)
  refine List.Perm.eq_of_pairwise ?_ (FileRecord.pairwise_mergeSort records)
    (FileRecord.pairwise_mergeSort _) hperm
  intro left right hleft hright hle hge
  refine eq_of_le_of_le_records hdistinct ?_ (List.mem_mergeSort.mp hright) hle hge
  exact h.mem_iff.mp (List.mem_mergeSort.mp hleft)

/-- The order is strict, since no two files have the same path. -/
theorem pairwise_lt_indexFiles :
    (indexFiles files).Pairwise fun left right => left.path.lt right.path = true := by
  have hperm : (indexFiles files).Perm (files.map SourceFile.record) := by
    rw [indexFiles_eq]
    exact List.mergeSort_perm _ _
  have hdiffer : (indexFiles files).Pairwise fun left right => left.path.same right.path = false := by
    refine (hperm.pairwise_iff fun h => ?_).mpr (List.pairwise_map.mpr hdistinct)
    rwa [Path.same_comm]
  refine (hdiffer.and (FileRecord.pairwise_mergeSort _)).imp ?_
  intro left right h
  rw [Path.lt_iff]
  refine lt_of_le_of_ne (Path.le_iff.mp h.2) fun heq => ?_
  rw [Path.key_eq_iff.mp heq] at h
  exact absurd h.1 (by decide)

/-- **Whatever the schedule, the number of workers and the order of the files, the same records are
collected.** Some worker can act until all have left, and no schedule goes on for ever. When all have
left, the records are those of the files, one for each, with strictly ascending paths. -/
theorem Pool.collected_of_finished :
    (∀ (others : List SourceFile) (workers : Nat) (pool : Pool), others.Perm files → 0 < workers →
      Pool.Run (Pool.start others workers) pool →
        (pool.Finished ∨ ∃ next, Pool.Step pool next) ∧
        (pool.Finished → pool.collected = indexFiles files ∧
          DependencyGraph.build pool.collected = DependencyGraph.ofFiles files)) ∧
      (WellFounded fun next pool => Pool.Step pool next) ∧
      ((indexFiles files).map some).Perm (files.map FileRecord.ofSource?) ∧
      (indexFiles files).Pairwise fun left right => left.path.lt right.path = true := by
  refine ⟨?_, Pool.wellFounded_step, ?_, pairwise_lt_indexFiles hdistinct⟩
  · intro others workers pool hothers hworkers hrun
    refine ⟨pool.finished_or_step, fun hfinished => ?_⟩
    have hperm := (Pool.perm_records_of_finished hworkers hrun hfinished).trans (hothers.filterMap _)
    have hcollected : pool.collected = indexFiles files := mergeSort_records_eq hdistinct hperm
    exact ⟨hcollected, by rw [hcollected]; rfl⟩
  · calc (indexFiles files).map some
        = ((files.map SourceFile.record).mergeSort FileRecord.le).map some := by rw [indexFiles_eq]
      _ |>.Perm ((files.map SourceFile.record).map some) := (List.mergeSort_perm _ _).map _
      _ = files.map FileRecord.ofSource? := by
        rw [List.map_map]
        exact List.map_congr_left fun file _ => (SourceFile.ofSource?_eq file).symm

end

/-- Two workers take a file each and the second one is faster: its record arrives first and is collected
last. -/
theorem Pool.collected_of_finished_second_first :
    ∃ pool : Pool, Pool.Run (Pool.start [⟨⟨"a.elm"⟩, "type A = A"⟩, ⟨⟨"b.elm"⟩, "type B = B"⟩] 2) pool ∧
      pool.Finished ∧ pool.records.map FileRecord.path = [⟨"b.elm"⟩, ⟨"a.elm"⟩] ∧
      pool.collected = indexFiles [⟨⟨"b.elm"⟩, "type B = B"⟩, ⟨⟨"a.elm"⟩, "type A = A"⟩] := by
  have hrun : Pool.Run (Pool.start [⟨⟨"a.elm"⟩, "type A = A"⟩, ⟨⟨"b.elm"⟩, "type B = B"⟩] 2)
      ⟨[], [.left, .left], [] ++ (FileRecord.ofSource? ⟨⟨"b.elm"⟩, "type B = B"⟩).toList ++
        (FileRecord.ofSource? ⟨⟨"a.elm"⟩, "type A = A"⟩).toList⟩ :=
    .head (@Pool.Step.take _ _ [] [.idle] _) <|
    .head (@Pool.Step.take _ _ [.reading ⟨⟨"a.elm"⟩, "type A = A"⟩] [] _) <|
    .head (@Pool.Step.send _ _ [.reading ⟨⟨"a.elm"⟩, "type A = A"⟩] [] _) <|
    .head (@Pool.Step.send _ _ [] [.idle] _) <|
    .head (@Pool.Step.leave [] [.idle] _) <|
    .single (@Pool.Step.leave [.left] [] _)
  have hfinished : ∀ worker ∈ [Worker.left, Worker.left], worker = .left := by decide
  refine ⟨_, hrun, hfinished, by decide +kernel, ?_⟩
  exact ((Pool.collected_of_finished (by decide)).1 _ 2 _ (.swap _ _ _) (by decide) hrun).2 hfinished |>.1

end ElmNavigation
