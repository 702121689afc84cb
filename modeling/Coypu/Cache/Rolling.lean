import Coypu.Cache.SequenceCache
import Coypu.Store.FlatLog

/-!
# Rolling files

Each run of the program writes its records to a file of its own: the first one of the path that does
not exist. `RestoreStore` reads the files one after the other, record by record, and passes over a
record that begins with a zero. The writer fills a file with whole pages, so there are zeros behind
the last record.
-/

set_option autoImplicit false

namespace Coypu

open FlatMemory

namespace Rolling

/-- The files of a path, by their index. -/
abbrev Files := ℕ → Option MappedFile

def noFiles : Files := fun _ ↦ none

def uint32Max : ℕ := 2 ^ 32 - 1

def recordSize : ℕ := 128

/-- The loop of `CreateRollingStore` over the indices from `index` on. -/
def firstMissing (files : Files) : ℕ → ℕ → Option ℕ
  | 0, _ => none
  | fuel + 1, index =>
    if (files index).isSome then firstMissing files fuel (index + 1) else some index

/-- `CreateRollingStore`: the index of the file, which is new and empty, and the log that writes to
it. -/
def createRollingStore (pageSize : ℕ) (hpage : 0 < pageSize) (files : Files) :
    Option (ℕ × PagedLog (LRUCache 128) 128) :=
  (firstMissing files uint32Max 0).map fun index ↦
    (index, PagedLog.ofFile 128 pageSize hpage MappedFile.empty)

/-- A run of the program, which opens a file and pushes records. -/
def process (pageSize : ℕ) (hpage : 0 < pageSize) (files : Files) (records : List CoinCache) :
    Option Files :=
  (createRollingStore pageSize hpage files).map fun r ↦
    Function.update files r.1 (some (records.foldl (fun log t ↦ (log.push t.bytes).2) r.2).file)

/-- The loop of `RestoreStore` over the records of a file from an offset on: its result, which is an
error for a record that is cut off, and what the callback gets. -/
def restoreFile (file : MappedFile) : ℕ → ℕ → ℤ × List (List UInt8)
  | 0, _ => (0, [])
  | fuel + 1, c =>
    if c < file.size then
      let data := load file.data c (min recordSize (file.size - c))
      if data.length ≠ recordSize then (-100, [])
      else
        let rest := restoreFile file fuel (c + recordSize)
        (rest.1, if data.head? = some 0 then rest.2 else data :: rest.2)
    else (0, [])

/-- The loop of `RestoreStore` over the files from an index on. -/
def restoreFiles (files : Files) : ℕ → ℕ → ℤ × List (List UInt8)
  | 0, _ => (0, [])
  | fuel + 1, index =>
    match files index with
    | none => (0, [])
    | some file =>
      let r := restoreFile file (file.size + 1) 0
      if r.1 < 0 then r
      else
        let rest := restoreFiles files fuel (index + 1)
        (rest.1, r.2 ++ rest.2)

def restoreStore (files : Files) : ℤ × List (List UInt8) := restoreFiles files uint32Max 0

/-! ## A file -/

/-- The file has the records, and zeros behind them up to its end. -/
structure Holds (file : MappedFile) (records : List CoinCache) : Prop where
  dvd : recordSize ∣ file.size
  le : recordSize * records.length ≤ file.size
  data_eq : file.data = store (fun _ ↦ 0) 0 (records.flatMap CoinCache.bytes)

theorem length_flatMap_bytes (records : List CoinCache) :
    (records.flatMap CoinCache.bytes).length = recordSize * records.length := by
  induction records with
  | nil => rfl
  | cons t records ih =>
    rw [List.flatMap_cons, List.length_append, ih, t.length_eq, List.length_cons, recordSize]
    omega

theorem head_ne_zero {t : CoinCache} (h : CacheType.key t ≠ []) : t.bytes.head? ≠ some 0 := by
  intro hhead
  obtain ⟨rest, hbytes⟩ := List.head?_eq_some_iff.mp hhead
  refine h ?_
  change (t.bytes.take 64).takeWhile (· ≠ 0) = []
  rw [hbytes, List.take_succ_cons, List.takeWhile_cons_of_neg (by decide)]

theorem restoreFile_succ {file : MappedFile} {fuel c : ℕ} (h : c + recordSize ≤ file.size) :
    restoreFile file (fuel + 1) c = ((restoreFile file fuel (c + recordSize)).1,
      if (load file.data c recordSize).head? = some 0 then
        (restoreFile file fuel (c + recordSize)).2
      else load file.data c recordSize :: (restoreFile file fuel (c + recordSize)).2) := by
  have hlt : c < file.size := Nat.lt_of_lt_of_le (Nat.lt_add_of_pos_right (by decide)) h
  have hmin : min recordSize (file.size - c) = recordSize := Nat.min_eq_left (by omega)
  rw [restoreFile, if_pos hlt, hmin]
  dsimp only
  rw [if_neg (not_not_intro (length_load _ _ _))]

theorem restoreFile_zeros {file : MappedFile} {fuel c : ℕ} (hdvd : recordSize ∣ file.size)
    (hc : recordSize ∣ c) (hzero : ∀ i, c ≤ i → file.data i = 0) (hfuel : file.size < c + fuel) :
    restoreFile file fuel c = (0, []) := by
  induction fuel generalizing c with
  | zero => rfl
  | succ fuel ih =>
    by_cases hlt : c < file.size
    · have hroom := Nat.le_of_dvd (Nat.sub_pos_of_lt hlt) (Nat.dvd_sub hdvd hc)
      have hhead : (load file.data c recordSize).head? = some 0 := by
        rw [recordSize, load_succ, List.head?_cons, hzero c (Nat.le_refl c)]
      have hrest := ih (Nat.dvd_add hc (Nat.dvd_refl _)) (fun i hi ↦ hzero i (by omega))
        (by rw [recordSize]; omega)
      rw [restoreFile_succ (by omega), if_pos hhead, hrest]
    · rw [restoreFile, if_neg hlt]

theorem restoreFile_eq {file : MappedFile} {records : List CoinCache} {fuel c : ℕ}
    (hdvd : recordSize ∣ file.size)
    (hc : recordSize ∣ c) (hle : c + recordSize * records.length ≤ file.size)
    (hdata : ∀ j, file.data (c + j) = (records.flatMap CoinCache.bytes).getD j 0)
    (hkeys : ∀ t ∈ records, CacheType.key t ≠ []) (hfuel : file.size < c + fuel) :
    restoreFile file fuel c = (0, records.map CoinCache.bytes) := by
  induction records generalizing c fuel with
  | nil =>
    refine restoreFile_zeros hdvd hc (fun i hi ↦ ?_) hfuel
    have hi' := hdata (i - c)
    rw [Nat.add_sub_cancel' hi] at hi'
    exact hi'
  | cons t records ih =>
    rw [List.length_cons, Nat.mul_succ] at hle
    obtain ⟨fuel, rfl⟩ : ∃ n, fuel = n + 1 := ⟨fuel - 1, by omega⟩
    have hlength : t.bytes.length = recordSize := t.length_eq
    have hload : load file.data c recordSize = t.bytes := by
      refine List.ext_getElem (by rw [length_load, hlength]) fun j hj hj' ↦ ?_
      rw [getElem_load, hdata, List.flatMap_cons, List.getD_append _ _ _ _ hj',
        List.getD_eq_getElem _ _ hj']
    have hrest := @ih fuel (c + recordSize) (Nat.dvd_add hc (Nat.dvd_refl _)) (by omega)
      (fun j ↦ by
        rw [Nat.add_assoc, hdata, List.flatMap_cons, List.getD_append_right _ _ _ _ (by omega),
          hlength, Nat.add_sub_cancel_left])
      (fun u hu ↦ hkeys u (List.mem_cons_of_mem _ hu)) (by rw [recordSize]; omega)
    rw [restoreFile_succ (by omega), hload, if_neg (head_ne_zero (hkeys t List.mem_cons_self)),
      hrest, List.map_cons]

theorem Holds.restoreFile {file : MappedFile} {records : List CoinCache} (h : Holds file records)
    (hkeys : ∀ t ∈ records, CacheType.key t ≠ []) :
    restoreFile file (file.size + 1) 0 = (0, records.map CoinCache.bytes) := by
  refine restoreFile_eq h.dvd (Nat.dvd_zero _) (by rw [Nat.zero_add]; exact h.le) (fun j ↦ ?_) hkeys
    (by omega)
  rw [h.data_eq, Nat.zero_add]
  by_cases hj : j < (records.flatMap CoinCache.bytes).length
  · have hget := store_add (m := fun _ ↦ (0 : UInt8)) (s := 0) hj
    rw [Nat.zero_add] at hget
    rw [hget, List.getD_eq_getElem _ _ hj]
  · rw [store_of_le (by omega), List.getD_eq_default _ _ (by omega)]

/-! ## A run -/

section Run

variable {pageSize : ℕ} {hpage : 0 < pageSize} {records : List CoinCache}

theorem extends_pushes {log log' : PagedLog (LRUCache 128) 128} {l : List UInt8}
    (h : log.Extends l log') (records : List CoinCache) :
    log.Extends (l ++ records.flatMap CoinCache.bytes)
      (records.foldl (fun log t ↦ (log.push t.bytes).2) log') := by
  induction records generalizing log' l with
  | nil =>
    rw [List.flatMap_nil, List.append_nil]
    exact h
  | cons t records ih =>
    have hpush := (h.writable.push t.bytes).2.1
    rw [List.flatMap_cons, ← List.append_assoc]
    refine ih ⟨hpush.writable, ?_, ?_, ?_, ?_⟩
    · rw [hpush.pageSize_eq, h.pageSize_eq]
    · rw [hpush.anonymous_eq, h.anonymous_eq]
    · rw [hpush.available_eq, h.available_eq, List.length_append, Nat.add_assoc]
    · rw [hpush.data_eq, h.data_eq, h.available_eq, store_append]

/-- **The file of a run** holds its records. -/
theorem holds_pushes (hdvd : recordSize ∣ pageSize) : Holds
    (records.foldl (fun log t ↦ (log.push t.bytes).2)
      (PagedLog.ofFile 128 pageSize hpage MappedFile.empty)).file
    records := by
  have hfirst : (PagedLog.ofFile 128 pageSize hpage MappedFile.empty).Extends []
      (PagedLog.ofFile 128 pageSize hpage MappedFile.empty) :=
    ⟨(PagedLog.flat_ofFile hpage (Nat.dvd_zero _)).writable, rfl, rfl, rfl, (store_nil _ _).symm⟩
  have h := extends_pushes hfirst records
  rw [List.nil_append] at h
  refine ⟨?_, ?_, h.data_eq⟩
  · have hpages := h.writable.appending.dvd
    rw [show LogWriteBuf.pageSize _ = pageSize from h.pageSize_eq, ← h.writable.appending.size_eq]
      at hpages
    exact Nat.dvd_trans hdvd hpages
  · have hle := h.writable.available_le
    rw [h.available_eq, length_flatMap_bytes] at hle
    exact Nat.le_trans (Nat.le_add_left _ _) hle

end Run

/-! ## The files of all runs -/

/-- The files of a list, from the first index on. -/
def ofList (files : List MappedFile) : Files := fun index ↦ files[index]?

theorem firstMissing_ofList {files : List MappedFile} {fuel index : ℕ}
    (hindex : index ≤ files.length) :
    firstMissing (ofList files) fuel index =
      if files.length < index + fuel then some files.length else none := by
  induction fuel generalizing index with
  | zero => rw [firstMissing, if_neg (by omega)]
  | succ fuel ih =>
    rw [firstMissing]
    by_cases hlt : index < files.length
    · have hsome : (ofList files index).isSome := by rw [ofList, List.getElem?_eq_getElem hlt]; rfl
      rw [if_pos hsome, ih hlt]
      exact if_congr (by omega) rfl rfl
    · have hnone : ¬(ofList files index).isSome := by
        rw [ofList, List.getElem?_eq_none (by omega)]
        exact Bool.false_ne_true
      have heq : index = files.length := by omega
      rw [if_neg hnone, if_pos (by omega), heq]

theorem update_ofList {files : List MappedFile} {file : MappedFile} :
    Function.update (ofList files) files.length (some file) = ofList (files ++ [file]) := by
  funext index
  rw [Function.update_apply, ofList, ofList]
  split_ifs with heq
  · rw [heq, List.getElem?_concat_length]
  · by_cases hlt : index < files.length
    · rw [List.getElem?_append_left hlt]
    · rw [List.getElem?_eq_none (by omega),
        List.getElem?_eq_none (by rw [List.length_append, List.length_singleton]; omega)]

variable {pageSize : ℕ} {hpage : 0 < pageSize}

theorem process_ofList (hdvd : recordSize ∣ pageSize) {files : List MappedFile}
    {runs : List (List CoinCache)}
    (h : List.Forall₂ Holds files runs) {records : List CoinCache} {files' : Files}
    (hprocess : process pageSize hpage (ofList files) records = some files') :
    ∃ file, files' = ofList (files ++ [file]) ∧
      List.Forall₂ Holds (files ++ [file]) (runs ++ [records])
      ∧ files.length + 1 ≤ uint32Max := by
  rw [process, createRollingStore, firstMissing_ofList (Nat.zero_le _), Option.map_map] at hprocess
  obtain ⟨index, hindex, rfl⟩ := Option.map_eq_some_iff.mp hprocess
  split_ifs at hindex with hlt
  obtain rfl := Option.some.inj hindex
  refine ⟨_, update_ofList, ?_, by omega⟩
  exact List.rel_append h (.cons (holds_pushes hdvd) .nil)

theorem restoreFiles_eq {files : List MappedFile} {runs : List (List CoinCache)}
    (before : List MappedFile) {fuel : ℕ}
    (h : List.Forall₂ Holds files runs) (hkeys : ∀ run ∈ runs, ∀ t ∈ run, CacheType.key t ≠ [])
    (hfuel : files.length ≤ fuel) :
    restoreFiles (ofList (before ++ files)) fuel before.length
      = (0, runs.flatten.map CoinCache.bytes) := by
  induction h generalizing before fuel with
  | nil =>
    cases fuel with
    | zero => rfl
    | succ fuel => rw [restoreFiles, ofList, List.append_nil,
      List.getElem?_eq_none (Nat.le_refl _)]; rfl
  | @cons file run files runs hfile hrest ih =>
    obtain ⟨fuel, rfl⟩ : ∃ n, fuel = n + 1 := ⟨fuel - 1, by rw [List.length_cons] at hfuel; omega⟩
    have hget : ofList (before ++ file :: files) before.length = some file := by
      rw [ofList, List.getElem?_append_right (Nat.le_refl _), Nat.sub_self]
      rfl
    have hone := hfile.restoreFile (hkeys run List.mem_cons_self)
    have hothers := @ih (before ++ [file]) fuel
      (fun run' hrun' ↦ hkeys run' (List.mem_cons_of_mem _ hrun')) (Nat.le_of_succ_le_succ hfuel)
    rw [List.append_assoc, List.singleton_append, List.length_append, List.length_singleton]
      at hothers
    rw [restoreFiles, hget]
    dsimp only
    rw [hone, hothers, if_neg (Int.lt_irrefl 0), List.flatten_cons, List.map_append]

theorem runs_ofList (hdvd : recordSize ∣ pageSize) {runs : List (List CoinCache)} {files : Files}
    (hruns : runs.foldlM (process pageSize hpage) noFiles = some files) :
    ∃ l, files = ofList l ∧ List.Forall₂ Holds l runs ∧ l.length ≤ uint32Max := by
  induction runs using List.reverseRecOn generalizing files with
  | nil => exact ⟨[], (Option.some.inj hruns).symm, .nil, Nat.zero_le _⟩
  | append_singleton runs records ih =>
    rw [List.foldlM_append] at hruns
    obtain ⟨files', hbefore, hlast⟩ := Option.bind_eq_some_iff.mp hruns
    obtain ⟨l, rfl, hholds, -⟩ := ih hbefore
    rw [List.foldlM_cons] at hlast
    obtain ⟨files'', hprocess, hnil⟩ := Option.bind_eq_some_iff.mp hlast
    obtain rfl := Option.some.inj hnil
    obtain ⟨file, rfl, hholds', hlength⟩ := process_ofList hdvd hholds hprocess
    exact ⟨_, rfl, hholds', by rw [List.length_append, List.length_singleton]; exact hlength⟩

/-- **The replay of all runs**: the records that were pushed, in their order, and nothing else. A
run that has opened its file and pushed nothing yet makes no difference. -/
theorem restoreStore_runs (pageSize : ℕ) (hpage : 0 < pageSize) (hdvd : recordSize ∣ pageSize)
    (runs : List (List CoinCache)) (hkeys : ∀ run ∈ runs, ∀ t ∈ run, CacheType.key t ≠ [])
    (files : Files) (hruns : runs.foldlM (process pageSize hpage) noFiles = some files) :
    restoreStore files = (0, runs.flatten.map CoinCache.bytes)
      ∧ ∀ files', process pageSize hpage files [] = some files' →
        restoreStore files' = (0, runs.flatten.map CoinCache.bytes) := by
  obtain ⟨l, rfl, hholds, hlength⟩ := runs_ofList hdvd hruns
  refine ⟨restoreFiles_eq [] hholds hkeys hlength, fun files' hprocess ↦ ?_⟩
  obtain ⟨file, rfl, hholds', hlength'⟩ := process_ofList hdvd hholds hprocess
  have hcount : (l ++ [file]).length ≤ uint32Max := by
    rw [List.length_append, List.length_singleton]
    exact hlength'
  have hall := restoreFiles_eq [] hholds' (fun run hrun t ht ↦ ?_) hcount
  · rw [List.flatten_append, List.flatten_singleton, List.append_nil] at hall
    exact hall
  · rcases List.mem_append.mp hrun with hrun | hrun
    · exact hkeys run hrun t ht
    · rw [List.mem_singleton.mp hrun] at ht
      exact absurd ht List.not_mem_nil

theorem restoreStore_runs_threeRuns : ∃ files,
    [[SequenceCache.btc, SequenceCache.btc], [], [SequenceCache.btc]].foldlM
      (process 256 (by decide)) noFiles = some files
      ∧ restoreStore files =
        (0, [SequenceCache.btc, SequenceCache.btc, SequenceCache.btc].map CoinCache.bytes) := by
  refine ⟨_, rfl, (restoreStore_runs 256 (by decide) (by decide)
    [[SequenceCache.btc, SequenceCache.btc], [], [SequenceCache.btc]] ?_ _ rfl).1⟩
  simp only [List.mem_cons, List.not_mem_nil, or_false]
  rintro run (rfl | rfl | rfl) t ht
  · simp only [List.mem_cons, List.not_mem_nil, or_false, or_self] at ht
    subst ht
    decide
  · exact absurd ht List.not_mem_nil
  · obtain rfl := List.mem_singleton.mp ht
    decide

end Rolling

end Coypu
