import SolidityCompass.Proofs.Footprint

/-!
# Open buffers as a merged file system

Buffers are opened and closed one after the other, and the last edit of a path decides whether a
buffer is open there and with which text. After any edits the buffers over the base answer every
question like one file map, into which the open buffers were written: the same texts, files and
directories, and the same listings with each file in the spelling of the base, where it has one.
So requests cannot tell the two apart.
-/

namespace SolidityCompass

namespace FileMap

variable {files : FileMap}

def held? (files : FileMap) (p : Path) : Option (Path × String) :=
  files.entries.find? (·.1.same p)

theorem get?_eq_map_held? (files : FileMap) (p : Path) :
    files.get? p = (files.held? p).map Prod.snd := rfl

theorem find?_paths_eq_map_held? (files : FileMap) (p : Path) :
    files.paths.find? (·.same p) = (files.held? p).map Prod.fst := by
  rw [paths, List.find?_map]
  rfl

theorem isSome_held? (files : FileMap) (p : Path) :
    (files.held? p).isSome = files.contains p := by
  rw [Bool.eq_iff_iff, held?, List.find?_isSome]
  simp [contains]

theorem same_of_held? {p : Path} {entry : Path × String} (h : files.held? p = some entry) :
    entry.1.same p = true := by
  have hsame := List.find?_some h
  exact hsame

/-- Writing to a path replaces its text and keeps its spelling, and adds the path if it is new. -/
theorem held?_insert (files : FileMap) (path : Path) (text : String) (p : Path) :
    (files.insert path text).held? p =
      if path.same p then some (((files.held? p).map Prod.fst).getD path, text)
      else files.held? p := by
  have hcontains : path.same p = true → (files.held? p).isSome = files.contains path := by
    intro hsame
    rw [isSome_held?, files.contains_congr (Path.same_iff.mp hsame)]
  unfold insert
  split
  next hheld =>
    have hkey : ∀ entry : Path × String,
        (if entry.1.same path then (entry.1, text) else entry).1.same p = entry.1.same p := by
      intro entry
      split <;> rfl
    have hmap : (FileMap.mk (files.entries.map fun entry =>
        if entry.1.same path then (entry.1, text) else entry)).held? p =
          (files.held? p).map fun entry =>
            if entry.1.same path then (entry.1, text) else entry := by
      rw [held?, List.find?_map]
      simp only [Function.comp_def, hkey, held?]
    rw [hmap]
    cases hentry : files.held? p with
    | none =>
      have hnot : ¬ path.same p = true := fun hsame => by
        simpa [hentry, hheld] using hcontains hsame
      rw [if_neg hnot, Option.map_none]
    | some entry =>
      have hsame := same_of_held? hentry
      rw [Option.map_some, Path.same_congr hsame, Path.same_comm p path]
      split <;> rfl
  next hnew =>
    have happend : (FileMap.mk (files.entries ++ [(path, text)])).held? p =
        (files.held? p).or (if path.same p then some (path, text) else none) := by
      rw [held?, List.find?_append, List.find?_singleton]
      rfl
    rw [happend]
    split
    next hsame =>
      have hnone : files.held? p = none := by
        simpa [hnew] using hcontains hsame
      rw [hnone]
      rfl
    next => rw [Option.or_none]

theorem get?_insert (files : FileMap) (path : Path) (text : String) (p : Path) :
    (files.insert path text).get? p = if path.same p then some text else files.get? p := by
  rw [get?_eq_map_held?, held?_insert, get?_eq_map_held?]
  split <;> rfl

theorem get?_erase (files : FileMap) (path p : Path) :
    (files.erase path).get? p = if path.same p then none else files.get? p := by
  unfold erase get?
  rw [List.find?_filter]
  split
  next hsame =>
    have hnone : files.entries.find? (fun entry =>
        decide ((!entry.1.same path) = true ∧ entry.1.same p = true)) = none := by
      rw [List.find?_eq_none]
      intro entry _ hboth
      obtain ⟨hpath, hp⟩ := of_decide_eq_true hboth
      rw [Path.same_congr hp, Path.same_comm, hsame] at hpath
      exact absurd hpath (by decide)
    rw [hnone]
    rfl
  next hne =>
    have hpred : (fun entry : Path × String =>
        decide ((!entry.1.same path) = true ∧ entry.1.same p = true)) =
          fun entry => entry.1.same p := by
      funext entry
      by_cases hp : entry.1.same p = true
      · rw [Path.same_congr hp path, Path.same_comm]
        simp [hne, hp]
      · simp [hp]
    rw [hpred]

/-- No path is held twice. Every map that is made by writing and erasing files is like this. -/
def Distinct (files : FileMap) : Prop :=
  files.paths.Pairwise (fun p q => p.same q = false)

instance (files : FileMap) : Decidable files.Distinct :=
  inferInstanceAs (Decidable (List.Pairwise _ _))

theorem paths_insert (files : FileMap) (path : Path) (text : String) :
    (files.insert path text).paths =
      if files.contains path then files.paths else files.paths ++ [path] := by
  unfold insert
  split
  · simp only [paths, List.map_map]
    refine List.map_congr_left fun entry _ => ?_
    dsimp only [Function.comp_apply]
    split <;> rfl
  · simp [paths]

theorem distinct_insert (h : files.Distinct) (path : Path) (text : String) :
    (files.insert path text).Distinct := by
  rw [Distinct, paths_insert]
  split
  next => exact h
  next hnew =>
    refine List.pairwise_append.mpr ⟨h, List.pairwise_singleton _ path, fun p hp q hq => ?_⟩
    obtain rfl := List.mem_singleton.mp hq
    obtain ⟨entry, hentry, rfl⟩ := List.mem_map.mp hp
    rw [Bool.eq_false_iff]
    intro hsame
    exact hnew (List.any_eq_true.mpr ⟨entry, hentry, hsame⟩)

theorem distinct_erase (h : files.Distinct) (path : Path) : (files.erase path).Distinct :=
  h.sublist (List.filter_sublist.map Prod.fst)

def insertAll (files : FileMap) (entries : List (Path × String)) : FileMap :=
  entries.foldl (fun files entry => files.insert entry.1 entry.2) files

theorem distinct_insertAll (h : files.Distinct) (entries : List (Path × String)) :
    (files.insertAll entries).Distinct := by
  induction entries generalizing files with
  | nil => exact h
  | cons entry entries ih => exact ih (distinct_insert h entry.1 entry.2)

theorem distinct_empty : empty.Distinct := List.Pairwise.nil

theorem distinct_ofList (entries : List (Path × String)) : (ofList entries).Distinct :=
  distinct_insertAll distinct_empty entries

/-- A path that was there keeps its spelling. -/
theorem find?_paths_insertAll (files : FileMap) (entries : List (Path × String)) (p : Path) :
    (files.insertAll entries).paths.find? (·.same p) =
      (files.paths.find? (·.same p)).or ((FileMap.mk entries).paths.find? (·.same p)) := by
  induction entries generalizing files with
  | nil => exact Option.or_none.symm
  | cons entry entries ih =>
    have hcons : (FileMap.mk (entry :: entries)).paths.find? (·.same p) =
        if entry.1.same p then some entry.1 else (FileMap.mk entries).paths.find? (·.same p) := by
      simp only [paths, List.map_cons, List.find?_cons]
      split <;> simp_all
    have hinsert : (files.insert entry.1 entry.2).paths.find? (·.same p) =
        (files.paths.find? (·.same p)).or (if entry.1.same p then some entry.1 else none) := by
      rw [find?_paths_eq_map_held?, held?_insert, find?_paths_eq_map_held?]
      cases files.held? p <;> split <;> rfl
    rw [insertAll, List.foldl_cons, ← insertAll, ih, hinsert, hcons, Option.or_assoc]
    split <;> rfl

/-- The text that was written over a path is the one of its entry. -/
theorem get?_insertAll (files : FileMap) {entries : List (Path × String)}
    (h : (FileMap.mk entries).Distinct) (p : Path) :
    (files.insertAll entries).get? p = ((FileMap.mk entries).get? p).or (files.get? p) := by
  induction entries generalizing files with
  | nil => rfl
  | cons entry entries ih =>
    obtain ⟨hfirst, hrest⟩ := List.pairwise_cons.mp h
    have hcons : (FileMap.mk (entry :: entries)).get? p =
        if entry.1.same p then some entry.2 else (FileMap.mk entries).get? p := by
      simp only [get?, List.find?_cons]
      split <;> simp_all
    rw [insertAll, List.foldl_cons, ← insertAll, ih _ hrest, get?_insert, hcons]
    split
    next hsame =>
      -- No later entry has the same path.
      have hnone : (FileMap.mk entries).get? p = none := by
        rw [get?_eq_none_iff, contains, List.any_eq_false]
        intro later hlater hp
        have hne := hfirst later.1 (List.mem_map_of_mem hlater)
        rw [Path.same_congr hsame, Path.same_comm, hp] at hne
        exact absurd hne (by decide)
      rw [hnone]
      rfl
    next => rfl

/-- The sources of a map without repeated paths are listed once each. -/
theorem pairwise_before_sources (h : files.Distinct) (directory : Path) :
    ((Store.memory files).sources directory).Pairwise Path.Before := by
  have hsources : (files.sourcesUnder directory).Pairwise (fun p q => p.same q = false) :=
    h.filter _
  have hsorted := (List.mergeSort_perm (files.sourcesUnder directory) Path.le).pairwise_iff
    (R := fun p q : Path => p.same q = false) (fun {p q} hpq => by rwa [Path.same_comm])
  exact (Path.pairwise_mergeSort _).and (hsorted.mpr hsources)

end FileMap

section merged

variable {base buffers : FileMap}

theorem Store.read_overlay_memory (hbuffers : buffers.Distinct) (p : Path) :
    (overlay buffers (memory base)).read p = (memory (base.insertAll buffers.entries)).read p := by
  rw [read, read, base.get?_insertAll hbuffers]
  cases hget : buffers.get? p with
  | some text => simp
  | none => simp [read]

theorem Store.spelling?_overlay_memory (p : Path) :
    (overlay buffers (memory base)).spelling? p =
      (memory (base.insertAll buffers.entries)).spelling? p :=
  (base.find?_paths_insertAll buffers.entries p).symm

theorem Store.sources_overlay_memory (hbase : base.Distinct) (directory : Path) :
    (overlay buffers (memory base)).sources directory =
      (memory (base.insertAll buffers.entries)).sources directory := by
  refine Path.eq_of_pairwise_before (pairwise_before_dropRepeats (Path.pairwise_mergeSort _))
    (FileMap.pairwise_before_sources (FileMap.distinct_insertAll hbase _) directory) fun p => ?_
  have hspelling : (overlay buffers (memory base)).spelling? p =
      (memory (base.insertAll buffers.entries)).spelling? p := spelling?_overlay_memory p
  simp only [spelling?] at hspelling
  simp only [find?_same_sources, listedSpelling?]
  split
  · exact hspelling
  · rfl

end merged

namespace Session

inductive Edit where
  | openBuffer (path : Path) (text : String)
  | closeBuffer (path : Path)
deriving Repr, DecidableEq

def apply (session : Session) : Edit → Session
  | .openBuffer path text => session.openBuffer path text
  | .closeBuffer path => session.closeBuffer path

def run (session : Session) (edits : List Edit) : Session :=
  edits.foldl apply session

def Edit.textAfter (p : Path) (held : Option String) : Edit → Option String
  | openBuffer path text => if path.same p then some text else held
  | closeBuffer path => if path.same p then none else held

/-- The text that the last edit of a path leaves open there. -/
def openText? (edits : List Edit) (p : Path) : Option String :=
  edits.foldl (Edit.textAfter p) none

section run

variable (session : Session) (edit : Edit) (edits : List Edit)

theorem apply_cases : ∃ buffers, session.apply edit = { session with buffers := buffers } ∧
    (session.buffers.Distinct → buffers.Distinct) ∧
    ∀ p, buffers.get? p = edit.textAfter p (session.buffers.get? p) := by
  cases edit with
  | openBuffer path text =>
    exact ⟨_, rfl, fun h => FileMap.distinct_insert h path text,
      session.buffers.get?_insert path text⟩
  | closeBuffer path =>
    exact ⟨_, rfl, fun h => FileMap.distinct_erase h path, session.buffers.get?_erase path⟩

/-- Edits change the buffers only, keep their paths distinct, and leave at each path what the last
edit of the path says. -/
theorem run_cases : ∃ buffers, session.run edits = { session with buffers := buffers } ∧
    (session.buffers.Distinct → buffers.Distinct) ∧
    ∀ p, buffers.get? p = edits.foldl (Edit.textAfter p) (session.buffers.get? p) := by
  induction edits generalizing session with
  | nil => exact ⟨session.buffers, rfl, id, fun p => rfl⟩
  | cons edit edits ih =>
    obtain ⟨buffers, happly, hdistinct, hget⟩ := session.apply_cases edit
    obtain ⟨buffers', hrun, hdistinct', hget'⟩ := ih (session.apply edit)
    rw [happly] at hrun hdistinct' hget'
    refine ⟨buffers', ?_, hdistinct' ∘ hdistinct, fun p => ?_⟩
    · rw [run, List.foldl_cons, ← run, happly, hrun]
    · rw [hget', List.foldl_cons, hget]

end run

/-- Open buffers behave as a merged file system. After any edits the session reads, finds and
lists files like one file map into which the open buffers were written, and answers all requests
like a fresh session over that map. At each path stands what its last edit left open, and closing
a buffer brings the base copy back. -/
theorem run_answers_as_merged (config : Config) (base : FileMap) (hbase : base.Distinct)
    (edits : List Edit) :
    let session := (start config (.memory base)).run edits
    let merged := Store.memory (base.insertAll session.buffers.entries)
    (∀ p, session.buffers.get? p = openText? edits p) ∧
      (∀ p, session.store.read p = merged.read p) ∧
      (∀ p, session.store.isFile p = merged.isFile p) ∧
      (∀ p, session.store.isDirectory p = merged.isDirectory p) ∧
      (∀ directory, ∃ files, session.store.list directory = .ok files ∧
        merged.list directory = .ok files ∧ files.Pairwise Path.Before) ∧
      (∀ document text, (session.analyze document text).SameAnswers
        ((start config merged).analyze document text)) ∧
      ∀ path, (session.closeBuffer path).store.read path = (Store.memory base).read path ∧
        (session.closeBuffer path).store.isFile path = (Store.memory base).isFile path := by
  obtain ⟨buffers, hrun, hdistinct, hget⟩ := (start config (.memory base)).run_cases edits
  have hbuffers : buffers.Distinct := hdistinct FileMap.distinct_empty
  rw [hrun]
  intro session merged
  have hread : ∀ p, session.store.read p = merged.read p := Store.read_overlay_memory hbuffers
  have hisFile : ∀ p, session.store.isFile p = merged.isFile p := by
    intro p
    rw [Store.isFile_eq_isSome_spelling?, Store.isFile_eq_isSome_spelling?]
    exact congrArg Option.isSome (Store.spelling?_overlay_memory p)
  refine ⟨hget, hread, hisFile, Store.isDirectory_congr hisFile, fun directory => ?_,
    fun document text => ?_, fun path => ?_⟩
  · have hlist : session.store.list directory = .ok (session.store.sources directory) := rfl
    have hsources : session.store.sources directory = merged.sources directory :=
      Store.sources_overlay_memory hbase directory
    refine ⟨merged.sources directory, hsources ▸ hlist, rfl, ?_⟩
    exact FileMap.pairwise_before_sources (FileMap.distinct_insertAll hbase _) directory
  · refine sameAnswers_of_read_eq ?_ ?_ ?_ ?_ ?_ document text
    · rfl
    · exact (Store.listsFiles_memory base).overlay buffers
    · exact (Store.listsFiles_memory _).overlay .empty
    · exact hisFile
    · exact hread
  · have hclosed : (buffers.erase path).get? path = none := by
      rw [FileMap.get?_erase, if_pos (Path.same_iff.mpr rfl)]
    have hgone := (FileMap.get?_eq_none_iff _ path).mp hclosed
    constructor
    · simp only [session, closeBuffer, store, Store.read, hclosed]
      rfl
    · simp only [session, closeBuffer, store, Store.isFile, hgone, Bool.false_or]
      rfl

def deskFiles : FileMap :=
  .ofList [(⟨"/p/Desk.sol"⟩, "contract Desk { }"), (⟨"/p/lib/ink/Pen.sol"⟩, "contract Pen { }")]

def deskEdits : List Edit :=
  [.openBuffer ⟨"/p//Desk.sol"⟩ "contract Desk { uint legs; }",
    .openBuffer ⟨"/p/Lamp.sol"⟩ "import \"./Desk.sol\";", .closeBuffer ⟨"/p/lib/ink/Pen.sol"⟩]

theorem run_answers_as_merged_of_desk :
    let session := (start { root := ⟨"/p"⟩ } (.memory deskFiles)).run deskEdits
    let merged := Store.memory (deskFiles.insertAll session.buffers.entries)
    deskFiles.Distinct ∧
      session.store.read ⟨"/p/Desk.sol"⟩ = .ok "contract Desk { uint legs; }" ∧
      (∃ files, session.store.list ⟨"/p"⟩ = .ok files ∧ merged.list ⟨"/p"⟩ = .ok files ∧
        files.Pairwise Path.Before) ∧
      (∀ document text, (session.analyze document text).SameAnswers
        ((start { root := ⟨"/p"⟩ } merged).analyze document text)) ∧
      (session.closeBuffer ⟨"/p/Desk.sol"⟩).store.read ⟨"/p/Desk.sol"⟩ =
        .ok "contract Desk { }" := by
  intro session merged
  have hdistinct := FileMap.distinct_ofList
    [(⟨"/p/Desk.sol"⟩, "contract Desk { }"), (⟨"/p/lib/ink/Pen.sol"⟩, "contract Pen { }")]
  obtain ⟨-, hread, -, -, hlist, hanswers, hclose⟩ :=
    run_answers_as_merged { root := ⟨"/p"⟩ } deskFiles hdistinct deskEdits
  refine ⟨hdistinct, ?_, hlist ⟨"/p"⟩, hanswers, ?_⟩
  · rw [hread]
    decide +kernel
  · rw [(hclose ⟨"/p/Desk.sol"⟩).1]
    decide +kernel

end Session

end SolidityCompass
