import Mathlib.Data.List.Induction
import SolidityCompass.Symbol.Loading

/-!
# The walk over the imports

A builder lowers what is in its queue, and then the files that it finds on the way. `Layered` says
which files these are, and in which order: files that can be read, each once and none of them
visited before; all that the files in front of them import; each one behind a file that imports it;
and a file in front of another one only if it is imported no later. A step of the builder keeps
this, by what visiting the targets of one file adds to the queue.
-/

namespace SolidityCompass

theorem FileMap.get?_congr (files : FileMap) {p q : Path} (h : p.components = q.components) :
    files.get? p = files.get? q := by
  simp only [get?, Path.same, h]

theorem Store.read_ok_congr (store : Store) {p q : Path} (h : p.components = q.components)
    (content : String) : store.read p = .ok content ↔ store.read q = .ok content := by
  induction store with
  | memory files | disk files =>
    unfold read
    rw [files.get?_congr h]
    split <;> simp
  | overlay buffers base ih =>
    unfold read
    rw [buffers.get?_congr h]
    split
    · rfl
    · exact ih

namespace Frontier

theorem hasVisited_congr (front : Frontier) {p q : Path} (h : p.components = q.components) :
    front.hasVisited p = front.hasVisited q := by
  simp only [hasVisited, Path.same, h]

/-- What visiting some targets adds: all of them are visited then, and those that are new and can
be read come to the end of the queue, each once. -/
structure Visits (store : Store) (front : Frontier) (targets : List Path)
    (found : List (Path × String)) (next : Frontier) : Prop where
  queue : next.queue = front.queue ++ found
  visited : ∀ p, next.hasVisited p = true ↔
    front.hasVisited p = true ∨ ∃ target ∈ targets, target.components = p.components
  isNew : ∀ e ∈ found, e.1 ∈ targets ∧ front.hasVisited e.1 = false ∧ store.read e.1 = .ok e.2
  distinct : found.Pairwise (fun a b => a.1.components ≠ b.1.components)
  complete : ∀ target ∈ targets, front.hasVisited target = false →
    ∀ content, store.read target = .ok content → ∃ e ∈ found, e.1.components = target.components

variable {store : Store} {front mid last : Frontier} {targets more : List Path}
  {found found' : List (Path × String)}

theorem visits_nil : Visits store front [] [] front := by
  constructor <;> simp

theorem exists_visits_visit (store : Store) (front : Frontier) (target : Path) :
    ∃ found, Visits store front [target] found (front.visit store target) := by
  have hmark : ∀ p (queue : List (Path × String)),
      hasVisited ⟨front.visited ++ [target], queue⟩ p = true ↔
        front.hasVisited p = true ∨ ∃ t ∈ [target], t.components = p.components := by
    simp [hasVisited, Path.same]
  unfold visit
  split
  next hold =>
    refine ⟨[], by simp, fun p => ?_, by simp, List.Pairwise.nil, by simp [hold]⟩
    simp only [List.mem_singleton, exists_eq_left]
    constructor
    · exact Or.inl
    · rintro (h | h)
      · exact h
      · rwa [← front.hasVisited_congr h]
  next hnew =>
    dsimp only
    split
    next text hread =>
      refine ⟨[(target, text)], rfl, fun p => hmark p _, ?_, List.pairwise_singleton _ _, ?_⟩
      · simpa [hread] using hnew
      · simp
    next hread =>
      exact ⟨[], by simp, fun p => hmark p _, by simp, List.Pairwise.nil, by simp [hread]⟩

/-- What is unvisited afterwards was unvisited before. -/
theorem Visits.hasVisited_eq_false (h : Visits store front targets found last) {p : Path}
    (hlast : last.hasVisited p = false) : front.hasVisited p = false := by
  by_contra hfront
  simp [(h.visited p).mpr (Or.inl (by simpa using hfront))] at hlast

theorem Visits.append (h : Visits store front targets found mid)
    (hs : Visits store mid more found' last) :
    Visits store front (targets ++ more) (found ++ found') last := by
  constructor
  case queue => rw [hs.queue, h.queue, List.append_assoc]
  case visited =>
    intro p
    rw [hs.visited, h.visited, or_assoc]
    simp only [List.mem_append, or_and_right, exists_or]
  case isNew =>
    intro e he
    rcases List.mem_append.mp he with he | he
    · obtain ⟨htarget, hrest⟩ := h.isNew e he
      exact ⟨List.mem_append_left _ htarget, hrest⟩
    · obtain ⟨htarget, hnew, hread⟩ := hs.isNew e he
      exact ⟨List.mem_append_right _ htarget, h.hasVisited_eq_false hnew, hread⟩
  case distinct =>
    refine List.pairwise_append.mpr ⟨h.distinct, hs.distinct, fun a ha b hb heq => ?_⟩
    obtain ⟨-, hnew, -⟩ := hs.isNew b hb
    simp [(h.visited b.1).mpr (Or.inr ⟨a.1, (h.isNew a ha).1, heq⟩)] at hnew
  case complete =>
    intro target htarget hnew content hread
    by_cases hmid : mid.hasVisited target = true
    · obtain ⟨t, ht, hsame⟩ := ((h.visited target).mp hmid).resolve_left (by simp [hnew])
      obtain ⟨e, he, heq⟩ := h.complete t ht (by rwa [front.hasVisited_congr hsame]) content
        ((store.read_ok_congr hsame content).mpr hread)
      exact ⟨e, List.mem_append_left _ he, heq.trans hsame⟩
    · rcases List.mem_append.mp htarget with htarget | htarget
      · exact absurd ((h.visited target).mpr (Or.inr ⟨target, htarget, rfl⟩)) hmid
      · obtain ⟨e, he, heq⟩ := hs.complete target htarget (by simpa using hmid) content hread
        exact ⟨e, List.mem_append_right _ he, heq⟩

theorem exists_visits (store : Store) (targets : List Path) (front : Frontier) :
    ∃ found, Visits store front targets found (targets.foldl (visit store) front) := by
  induction targets generalizing front with
  | nil => exact ⟨[], visits_nil⟩
  | cons target targets ih =>
    obtain ⟨found, hfound⟩ := exists_visits_visit store front target
    obtain ⟨found', hfound'⟩ := ih (front.visit store target)
    exact ⟨found ++ found', hfound.append hfound'⟩

end Frontier

namespace Builder

def Leads (rules : ImportRules) (e : Path × String) (path : Path) : Prop :=
  ∃ target ∈ rules.targets e.1 e.2, target.components = path.components

def Imported (rules : ImportRules) (loaded : List (Path × String)) (path : Path) : Prop :=
  ∃ e ∈ loaded, Leads rules e path

/-- What is loaded behind the queue. -/
structure Layered (rules : ImportRules) (front : Frontier) (later : List (Path × String)) :
    Prop where
  isNew : ∀ e ∈ later, front.hasVisited e.1 = false
  readable : ∀ e ∈ later, rules.store.read e.1 = .ok e.2
  distinct : later.Pairwise (fun a b => a.1.components ≠ b.1.components)
  closed : ∀ e ∈ front.queue ++ later, ∀ target ∈ rules.targets e.1 e.2,
    front.hasVisited target = false → ∀ content, rules.store.read target = .ok content →
    ∃ e' ∈ later, e'.1.components = target.components
  imported : ∀ before e after, later = before ++ e :: after →
    ∃ e' ∈ front.queue ++ before, e.1 ∈ rules.targets e'.1 e'.2
  ordered : later.Pairwise (fun a b => ∀ loaded, loaded <+: front.queue ++ later →
    Imported rules loaded b.1 → Imported rules loaded a.1)

variable {rules : ImportRules}

theorem layered_nil {visited : List Path} : Layered rules ⟨visited, []⟩ [] := by
  constructor <;> simp

section step

variable {path : Path} {text : String} {visited : List Path}
  {queue found later : List (Path × String)} {next : Frontier}
  (hv : Frontier.Visits rules.store ⟨visited, queue⟩ (rules.targets path text) found next)

include hv

/-- What is loaded later is not imported by the file in front of the queue. -/
theorem Layered.not_leads (h : Layered rules next later) {e : Path × String} (he : e ∈ later) :
    ¬ Leads rules (path, text) e.1 := by
  intro hleads
  have hnew := h.isNew e he
  simp [(hv.visited e.1).mpr (Or.inr hleads)] at hnew

theorem Layered.isNew_step (h : Layered rules next later) {e : Path × String}
    (he : e ∈ found ++ later) : Frontier.hasVisited ⟨visited, queue⟩ e.1 = false := by
  rcases List.mem_append.mp he with he | he
  · exact (hv.isNew e he).2.1
  · exact hv.hasVisited_eq_false (h.isNew e he)

theorem Layered.closed_step (h : Layered rules next later) {e : Path × String}
    (he : e ∈ (path, text) :: (queue ++ found ++ later)) {target : Path} {content : String}
    (htarget : target ∈ rules.targets e.1 e.2)
    (hnew : Frontier.hasVisited ⟨visited, queue⟩ target = false)
    (hread : rules.store.read target = .ok content) :
    ∃ e' ∈ found ++ later, e'.1.components = target.components := by
  by_cases hnext : next.hasVisited target = true
  · obtain ⟨t, ht, hsame⟩ := ((hv.visited target).mp hnext).resolve_left (by simp [hnew])
    obtain ⟨e', he', heq⟩ := hv.complete t ht (by rwa [Frontier.hasVisited_congr _ hsame]) content
      ((rules.store.read_ok_congr hsame content).mpr hread)
    exact ⟨e', List.mem_append_left _ he', heq.trans hsame⟩
  · rcases List.mem_cons.mp he with rfl | he
    · exact absurd ((hv.visited target).mpr (Or.inr ⟨target, htarget, rfl⟩)) hnext
    · obtain ⟨e', he', heq⟩ := h.closed e (hv.queue ▸ he) target htarget (by simpa using hnext)
        content hread
      exact ⟨e', List.mem_append_right _ he', heq⟩

theorem Layered.imported_step (h : Layered rules next later)
    {before after : List (Path × String)} {e : Path × String}
    (hsplit : found ++ later = before ++ e :: after) :
    ∃ e' ∈ (path, text) :: queue ++ before, e.1 ∈ rules.targets e'.1 e'.2 := by
  by_cases he : e ∈ found
  · exact ⟨(path, text), by simp, (hv.isNew e he).1⟩
  · obtain ⟨more, rfl, hlater⟩ : ∃ more, before = found ++ more ∧ later = more ++ e :: after := by
      rcases List.append_eq_append_iff.mp hsplit with
        ⟨more, hbefore, hlater⟩ | ⟨more, hfound, hmore⟩
      · exact ⟨more, hbefore, hlater⟩
      · cases more with
        | nil => exact ⟨[], by simpa using hfound.symm, by simpa using hmore.symm⟩
        | cons first more =>
          obtain ⟨rfl, -⟩ := List.cons.inj hmore
          exact absurd (by simp [hfound]) he
    obtain ⟨e', he', htarget⟩ := h.imported more e after hlater
    refine ⟨e', ?_, htarget⟩
    rw [hv.queue, List.append_assoc] at he'
    exact List.mem_cons_of_mem _ he'

/-- A file that the front of the queue imports is imported as soon as any other one is. -/
theorem imported_of_mem_found {a : Path × String} (ha : a ∈ found)
    {loaded all : List (Path × String)} {b : Path}
    (hinit : loaded <+: (path, text) :: all) (hb : Imported rules loaded b) :
    Imported rules loaded a.1 := by
  rcases List.prefix_cons_iff.mp hinit with rfl | ⟨tail, rfl, -⟩
  · obtain ⟨e, he, -⟩ := hb
    simp at he
  · exact ⟨(path, text), List.mem_cons_self, a.1, (hv.isNew a ha).1, rfl⟩

theorem Layered.ordered_step (h : Layered rules next later) :
    (found ++ later).Pairwise (fun a b => ∀ loaded,
      loaded <+: (path, text) :: (queue ++ found ++ later) →
      Imported rules loaded b.1 → Imported rules loaded a.1) := by
  refine List.pairwise_append.mpr ⟨?_, ?_, ?_⟩
  · exact hv.distinct.imp_of_mem fun ha _ _ loaded hinit hb =>
      imported_of_mem_found hv ha hinit hb
  · refine h.ordered.imp_of_mem fun {a b} _ hb horder loaded hinit himported => ?_
    rcases List.prefix_cons_iff.mp hinit with rfl | ⟨tail, rfl, htail⟩
    · obtain ⟨e, he, -⟩ := himported
      simp at he
    · obtain ⟨e, he, hleads⟩ := himported
      rcases List.mem_cons.mp he with rfl | he
      · exact absurd hleads (h.not_leads hv hb)
      · obtain ⟨e', he', hleads'⟩ := horder tail (hv.queue ▸ htail) ⟨e, he, hleads⟩
        exact ⟨e', List.mem_cons_of_mem _ he', hleads'⟩
  · intro a ha b _ loaded hinit hb
    exact imported_of_mem_found hv ha hinit hb

/-- One file is taken from the queue, and those that it imports are added to the end. -/
theorem Layered.step (h : Layered rules next later) :
    Layered rules ⟨visited, (path, text) :: queue⟩ (found ++ later) := by
  have hall : (path, text) :: queue ++ (found ++ later) =
      (path, text) :: (queue ++ found ++ later) := by
    simp
  constructor
  case isNew => exact fun e he => h.isNew_step hv he
  case readable =>
    intro e he
    rcases List.mem_append.mp he with he | he
    · exact (hv.isNew e he).2.2
    · exact h.readable e he
  case distinct =>
    refine List.pairwise_append.mpr ⟨hv.distinct, h.distinct, fun a ha b hb heq => ?_⟩
    exact h.not_leads hv hb ⟨a.1, (hv.isNew a ha).1, heq⟩
  case closed =>
    intro e he target htarget hnew content hread
    rw [hall] at he
    exact h.closed_step hv he htarget hnew hread
  case imported => exact fun before e after hsplit => h.imported_step hv hsplit
  case ordered =>
    rw [hall]
    exact h.ordered_step hv

end step

/-- A builder lowers its queue and what is layered behind it, and numbers the files on. -/
theorem exists_layered_run (rules : ImportRules) (b : Builder) :
    ∃ later, Layered rules b.front later ∧
    (b.run rules).files = b.symbols.files ++ (b.front.queue ++ later).mapIdx fun i e =>
      ⟨b.symbols.files.length + i, e.1, e.2⟩ := by
  fun_induction run rules b with
  | case1 b h =>
    have hqueue := step_eq_none_iff.mp h
    refine ⟨[], ?_, by simp [hqueue]⟩
    obtain ⟨symbols, visited, queue⟩ := b
    obtain rfl : queue = [] := hqueue
    exact layered_nil
  | case2 b next h _ ih =>
    obtain ⟨path, text, queue, hqueue, hsymbols, hfront⟩ := step_eq_some_iff.mp h
    obtain ⟨found, hv⟩ := Frontier.exists_visits rules.store (rules.targets path text)
      ⟨b.front.visited, queue⟩
    rw [← hfront] at hv
    obtain ⟨later, hlater, hfiles⟩ := ih
    refine ⟨found ++ later, ?_, ?_⟩
    · have hstep := hlater.step hv
      rwa [← hqueue] at hstep
    · have hadds := b.symbols.adds_lower rules b.symbols.files.length path text
      rw [hfiles, hsymbols, hqueue, hv.queue]
      simp [Symbols.addFile, hadds.files, List.mapIdx_cons, Nat.add_comm, Nat.add_left_comm]

/-- What waits in the queue comes to the files. -/
theorem exists_file_of_mem_queue (rules : ImportRules) {b : Builder} {e : Path × String}
    (he : e ∈ b.front.queue) :
    ∃ file ∈ (b.run rules).files, (file.path, file.text) = e := by
  obtain ⟨later, -, hfiles⟩ := exists_layered_run rules b
  obtain ⟨i, hi, rfl⟩ := List.getElem_of_mem (List.mem_append_left later he)
  rw [hfiles]
  exact ⟨_, List.mem_append_right _ (List.mem_mapIdx.mpr ⟨i, hi, rfl⟩), rfl⟩

end Builder

/-- A table begins with its document. -/
theorem Table.exists_files_load (rules : ImportRules) (path : Path) (text : String) :
    ∃ more, (load rules path text).files = ⟨0, path, text⟩ :: more := by
  obtain ⟨later, -, hfiles⟩ := Builder.exists_layered_run rules (Builder.start path text)
  exact ⟨_, hfiles.trans List.mapIdx_cons⟩

end SolidityCompass
