import SolidityCompass.Proofs.Names
import SolidityCompass.Proofs.Selection

/-!
# Scopes grow along a function

The locals of a function stand behind each other in the text and have names, whatever the body
looks like. So the locals in scope at an offset are a first part of all locals, which only grows
with the offset, and to look for a name from behind finds the local of that name that was declared
last. `Declared.Means` says what a name stands for without the lists of a scope: by places for
locals, and by the order of the list for parameters, of which those without a name stand for
nothing.
-/

namespace SolidityCompass

/-- What holds of a first part only, and of all of it, picks that part. -/
theorem filter_prefix_of_pairwise {α : Type} {p : α → Bool} {xs : List α}
    (h : xs.Pairwise fun a b => p b = true → p a = true) : xs.filter p <+: xs := by
  induction h with
  | nil => exact List.nil_prefix
  | @cons x xs hx _ ih =>
    by_cases hp : p x = true
    · rw [List.filter_cons_of_pos hp]
      exact List.cons_prefix_cons.mpr ⟨rfl, ih⟩
    · have hnone : xs.filter p = [] :=
        List.filter_eq_nil_iff.mpr fun y hy hpy => hp (hx y hy hpy)
      rw [List.filter_cons_of_neg hp, hnone]
      exact List.nil_prefix

/-- The first parameter of a name. One without a name has not even the empty one. -/
def parameterNamed? (params : List Parameter) (name : String) : Option Parameter :=
  params.find? fun p => p.name.map Name.text = some name

theorem find?_ofParameter {role : VariableRole} {container name : String} {file : Nat}
    (params : List Parameter) (hname : name ≠ "") :
    (params.map (Variable.ofParameter role container file)).find? (fun v => v.name = name) =
      (parameterNamed? params name).map (.ofParameter role container file) := by
  have hsame (p : Parameter) :
      (Variable.ofParameter role container file p).name = name ↔
        p.name.map Name.text = some name := by
    cases hp : p.name with
    | none => simp [Variable.ofParameter, hp, hname.symm]
    | some n => simp [Variable.ofParameter, hp]
  rw [List.find?_map, parameterNamed?]
  simp only [Function.comp_def, hsame]

namespace Declared

variable {f : Declared Function} {name : String} {offset : Nat} {v w : Variable}

/-- The last one in the text among the locals of a name that are declared at an offset. -/
structure IsLatest (f : Declared Function) (name : String) (offset : Nat) (v : Variable) :
    Prop where
  mem : v ∈ f.locals
  name_eq : v.name = name
  stop_le : v.range.stop ≤ offset
  last : ∀ w ∈ f.locals, w.name = name → w.range.stop ≤ offset →
    w = v ∨ w.range.stop ≤ v.range.start

/-- What a name stands for at an offset of a function: the latest local, or the first parameter
where no local of that name is declared, or the first return parameter where there is no such
parameter either. -/
inductive Means (f : Declared Function) (name : String) (offset : Nat) : Variable → Prop
  | latest {v : Variable} (h : f.IsLatest name offset v) : Means f name offset v
  | input {p : Parameter} (hlocals : ∀ w ∈ f.locals, w.name = name → offset < w.range.stop)
    (hinput : parameterNamed? f.decl.params name = some p) :
    Means f name offset (.ofParameter .parameter f.decl.name.text f.home.file p)
  | output {p : Parameter} (hlocals : ∀ w ∈ f.locals, w.name = name → offset < w.range.stop)
    (hinput : parameterNamed? f.decl.params name = none)
    (houtput : parameterNamed? f.decl.returns name = some p) :
    Means f name offset (.ofParameter .returned f.decl.name.text f.home.file p)

structure InSourceOrder (f : Declared Function) : Prop where
  follow : f.locals.Pairwise fun v w => v.range.stop ≤ w.range.start
  nonempty : ∀ v ∈ f.locals, v.range.start < v.range.stop
  named : ∀ n ∈ f.decl.names, n.text ≠ ""

namespace InSourceOrder

theorem name_ne_empty (h : f.InSourceOrder) (hv : v ∈ f.locals) : v.name ≠ "" := by
  obtain ⟨l, hl, rfl⟩ := List.mem_map.mp hv
  exact h.named l.name
    (List.mem_cons_of_mem _ (List.mem_append_right _ (List.mem_map_of_mem hl)))

theorem name_ne_empty_of_parameterNamed? (h : f.InSourceOrder) {params : List Parameter}
    (hparams : params ⊆ f.decl.params ++ f.decl.returns) {p : Parameter}
    (hp : parameterNamed? params name = some p) : name ≠ "" := by
  have hname := List.find?_some hp
  obtain ⟨n, hn, rfl⟩ := Option.map_eq_some_iff.mp (of_decide_eq_true hname)
  have hmem := hparams (List.mem_of_find?_eq_some hp)
  refine h.named n (List.mem_cons_of_mem _ (List.mem_append_left _ ?_))
  rw [← List.flatMap_append]
  exact List.mem_flatMap.mpr ⟨p, hmem, by simp [Parameter.names, hn]⟩

/-- A name that stands for something is not empty. -/
theorem ne_empty_of_means (h : f.InSourceOrder) (hv : f.Means name offset v) : name ≠ "" := by
  cases hv with
  | latest hlatest => exact hlatest.name_eq ▸ h.name_ne_empty hlatest.mem
  | input _ hinput =>
    exact h.name_ne_empty_of_parameterNamed? (List.subset_append_left _ _) hinput
  | output _ _ houtput =>
    exact h.name_ne_empty_of_parameterNamed? (List.subset_append_right _ _) houtput

/-- A local that is declared at an offset has all locals before it declared there. -/
theorem pairwise_stop_le (h : f.InSourceOrder) (offset : Nat) :
    f.locals.Pairwise fun v w =>
      decide (w.range.stop ≤ offset) = true → decide (v.range.stop ≤ offset) = true := by
  refine h.follow.imp_of_mem ?_
  intro v w _ hw hvw
  have hlt := h.nonempty w hw
  simp only [decide_eq_true_eq]
  omega

theorem latest_unique (h : f.InSourceOrder) (hv : f.IsLatest name offset v)
    (hw : f.IsLatest name offset w) : v = w := by
  have hvlt := h.nonempty v hv.mem
  have hwlt := h.nonempty w hw.mem
  rcases hw.last v hv.mem hv.name_eq hv.stop_le with heq | hbefore
  · exact heq
  · rcases hv.last w hw.mem hw.name_eq hw.stop_le with heq | hbehind
    · exact heq.symm
    · omega

/-- From behind, the first declared local of a name is the last one in the text. -/
theorem isLatest_of_find? (h : f.InSourceOrder)
    (hv : ((f.locals.filter fun v => v.range.stop ≤ offset).reverse.find?
      fun v => v.name = name) = some v) : f.IsLatest name offset v := by
  have hmem := List.mem_filter.mp (List.mem_reverse.mp (List.mem_of_find?_eq_some hv))
  obtain ⟨hname, behind, before, hsplit, hnone⟩ := List.find?_eq_some_iff_append.mp hv
  have hlocals := List.reverse_eq_iff.mp hsplit
  rw [List.reverse_append, List.reverse_cons, List.append_assoc, List.singleton_append] at hlocals
  have hordered := h.follow.filter fun v => decide (v.range.stop ≤ offset)
  rw [hlocals] at hordered
  refine ⟨hmem.1, of_decide_eq_true hname, of_decide_eq_true hmem.2, ?_⟩
  intro w hw hwname hwstop
  have hwin : w ∈ f.locals.filter fun v => v.range.stop ≤ offset :=
    List.mem_filter.mpr ⟨hw, decide_eq_true hwstop⟩
  rw [hlocals, List.mem_append, List.mem_cons] at hwin
  rcases hwin with hbefore | rfl | hbehind
  · exact Or.inr ((List.pairwise_append.mp hordered).2.2 w hbefore v List.mem_cons_self)
  · exact Or.inl rfl
  · have hother := hnone w (List.mem_reverse.mp hbehind)
    simp [hwname] at hother

end InSourceOrder

end Declared

namespace Scope

variable {f : Declared Function} {name : String} {offset : Nat}

theorem find?_empty (scope : Scope) : scope.find? "" = none := by
  simp [find?, visible]

theorem name_of_find? {scope : Scope} {v : Variable} (h : scope.find? name = some v) :
    v.name = name := by
  have hname := List.find?_some (show scope.visible.find? (fun v => v.name = name) = some v from h)
  exact of_decide_eq_true hname

theorem find?_eq (scope : Scope) (hname : name ≠ "") :
    scope.find? name =
      ((scope.locals.reverse.find? fun v => v.name = name).or
        (scope.function.inputs.find? fun v => v.name = name)).or
        (scope.function.outputs.find? fun v => v.name = name) := by
  have hsame (v : Variable) :
      ((v.name != "") = true ∧ decide (v.name = name) = true) ↔ v.name = name := by
    by_cases hv : v.name = name
    · simp [hv, hname]
    · simp [hv]
  rw [find?, visible, List.find?_filter]
  simp only [hsame, List.find?_append]

/-- To look for a name in a scope finds what the name stands for. -/
theorem find?_eq_some_iff (h : f.InSourceOrder) {v : Variable} :
    (Scope.mk f (f.locals.filter fun v => v.range.stop ≤ offset)).find? name = some v ↔
      f.Means name offset v := by
  by_cases hname : name = ""
  · subst hname
    rw [find?_empty]
    exact ⟨nofun, fun hv => absurd rfl (h.ne_empty_of_means hv)⟩
  rw [find?_eq _ hname, Declared.inputs, Declared.outputs, find?_ofParameter _ hname,
    find?_ofParameter _ hname]
  cases hlocal : (f.locals.filter fun v => v.range.stop ≤ offset).reverse.find?
      fun v => v.name = name with
  | some w =>
    have hw := h.isLatest_of_find? hlocal
    simp only [Option.some_or, Option.some.injEq]
    constructor
    · rintro rfl
      exact .latest hw
    · intro hv
      cases hv with
      | latest hv => exact h.latest_unique hw hv
      | input hlocals => exact absurd hw.stop_le (hlocals w hw.mem hw.name_eq).not_ge
      | output hlocals => exact absurd hw.stop_le (hlocals w hw.mem hw.name_eq).not_ge
  | none =>
    have hlocals : ∀ w ∈ f.locals, w.name = name → offset < w.range.stop := by
      intro w hw hwname
      by_contra hle
      have hwin : w ∈ f.locals.filter fun v => v.range.stop ≤ offset :=
        List.mem_filter.mpr ⟨hw, decide_eq_true (Nat.le_of_not_lt hle)⟩
      exact List.find?_eq_none.mp hlocal w (List.mem_reverse.mpr hwin) (decide_eq_true hwname)
    rw [Option.none_or]
    cases hinput : parameterNamed? f.decl.params name with
    | some p =>
      simp only [Option.map_some, Option.some_or, Option.some.injEq]
      constructor
      · rintro rfl
        exact .input hlocals hinput
      · intro hv
        cases hv with
        | latest hv => exact absurd hv.stop_le (hlocals v hv.mem hv.name_eq).not_ge
        | input _ hp => rw [Option.some.inj (hinput.symm.trans hp)]
        | output _ hnone => rw [hinput] at hnone; cases hnone
    | none =>
      rw [Option.map_none, Option.none_or, Option.map_eq_some_iff]
      constructor
      · rintro ⟨p, houtput, rfl⟩
        exact .output hlocals hinput houtput
      · intro hv
        cases hv with
        | latest hv => exact absurd hv.stop_le (hlocals v hv.mem hv.name_eq).not_ge
        | input _ hp => rw [hinput] at hp; cases hp
        | output _ _ houtput => exact ⟨_, houtput, rfl⟩

/-- What is in scope later on goes on from what is in scope before. -/
theorem locals_prefix (h : f.InSourceOrder) {first last : Nat} (hle : first ≤ last) :
    (f.locals.filter fun v => v.range.stop ≤ first) <+:
      f.locals.filter fun v => v.range.stop ≤ last := by
  have hagain : (f.locals.filter fun v => v.range.stop ≤ first) =
      (f.locals.filter fun v => v.range.stop ≤ last).filter fun v => v.range.stop ≤ first := by
    rw [List.filter_filter]
    congr 1
    funext v
    simp only [← Bool.decide_and, decide_eq_decide]
    omega
  rw [hagain]
  exact filter_prefix_of_pairwise ((h.pairwise_stop_le first).filter _)

end Scope

theorem Name.StandsIn.range_lt {text : String} {name : Name} (h : name.StandsIn text) :
    name.range.start < name.range.stop := by
  rcases h with ⟨t, ht, rfl⟩ | ⟨-, before, keyword, paren, after, hsplit, -, -, hrange⟩
  · exact (ordered_significant text).nonempty t ht
  · rw [hrange]
    exact (ordered_significant text).nonempty keyword (by simp [hsplit])

section outline

variable {text : String} {c : Contract} {f : Function}

theorem standing_of_mem_members (hc : c ∈ (readOutline text).outline.contracts)
    (hf : .function f ∈ c.members) : Standing text f.names := by
  intro n hn
  have hmember : n ∈ c.members.flatMap Member.names := List.mem_flatMap.mpr ⟨_, hf, hn⟩
  exact standing_outline (Outline.mem_contracts.mp hc) n (List.mem_cons_of_mem _ hmember)

/-- The name, the parameters and the locals of a function form a row inside of it. -/
theorem row_of_mem_members (hc : c ∈ (readOutline text).outline.contracts)
    (hf : .function f ∈ c.members) :
    Row text f.range.start f.range.stop (f.name.tree ::
      (f.params.map Parameter.tree ++ f.returns.map Parameter.tree ++
        f.locals.map LocalVariable.tree)) :=
  ((row_of_mem_contracts hc).of_mem
    (List.mem_cons_of_mem _ (List.mem_map_of_mem (f := Member.tree) hf))).2.2.2

/-- A local is at least as long as its name. -/
theorem local_range_lt (hc : c ∈ (readOutline text).outline.contracts)
    (hf : .function f ∈ c.members) {l : LocalVariable} (hl : l ∈ f.locals) :
    l.range.start < l.range.stop := by
  have hname : l.name ∈ f.names :=
    List.mem_cons_of_mem _ (List.mem_append_right _ (List.mem_map_of_mem hl))
  have hlt := (standing_of_mem_members hc hf l.name hname).range_lt
  have htree : l.tree ∈ f.locals.map LocalVariable.tree := List.mem_map_of_mem hl
  obtain ⟨-, -, -, hparts⟩ := (row_of_mem_members hc hf).of_mem
    (List.mem_cons_of_mem _ (List.mem_append_right _ htree))
  obtain ⟨hstart, hstop, -⟩ := hparts.of_mem List.mem_cons_self
  omega

/-- Every function of an outline declares its locals in the order of the text. -/
theorem inSourceOrder_of_mem {c : Declared Contract} {f : Declared Function}
    (hc : c.decl ∈ (readOutline text).outline.contracts) (hf : f ∈ c.functions) :
    f.InSourceOrder := by
  have hdecl := Declared.decl_mem_of_mem_functions hf
  have hparts := (List.pairwise_cons.mp (row_of_mem_members hc hdecl).pairwise).2
  refine ⟨?_, ?_, fun n hn => (standing_of_mem_members hc hdecl n hn).text_ne_empty⟩
  · exact List.pairwise_map.mpr (List.pairwise_map.mp (List.pairwise_append.mp hparts).2.1)
  · intro v hv
    obtain ⟨l, hl, rfl⟩ := List.mem_map.mp hv
    exact local_range_lt hc hdecl hl

end outline

/-- The locals of a function stand behind each other in the text. Those in scope at an offset inside
the function are a first part of them, and of those in scope at any later offset, and a name found
in the scope is never empty and stands for what is found. -/
theorem Scope.grows_along_function (text : String) (c : Declared Contract) (f : Declared Function)
    (hc : c.decl ∈ (readOutline text).outline.contracts) (hf : f ∈ c.functions) :
    f.locals.Pairwise (fun v w => v.range.stop ≤ w.range.start) ∧
      (∀ offset, f.decl.range.touches offset = true →
        ∃ scope, at? f offset = some scope ∧ scope.locals <+: f.locals ∧
          ∀ name v, (scope.find? name = some v ↔ f.Means name offset v) ∧
            (scope.find? name = some v → name ≠ "" ∧ v.name = name)) ∧
      ∀ first last before behind, first ≤ last → at? f first = some before →
        at? f last = some behind → before.locals <+: behind.locals := by
  have horder := inSourceOrder_of_mem hc hf
  refine ⟨horder.follow, ?_, ?_⟩
  · intro offset htouch
    refine ⟨_, at?_eq_some_iff.mpr ⟨htouch, rfl⟩,
      filter_prefix_of_pairwise (horder.pairwise_stop_le offset), ?_⟩
    intro name v
    refine ⟨find?_eq_some_iff horder, fun hv => ⟨?_, ?_⟩⟩
    · exact horder.ne_empty_of_means ((find?_eq_some_iff horder).mp hv)
    · exact name_of_find? hv
  · intro first last before behind hle hbefore hbehind
    obtain ⟨-, rfl⟩ := at?_eq_some_iff.mp hbefore
    obtain ⟨-, rfl⟩ := at?_eq_some_iff.mp hbehind
    exact locals_prefix horder hle

def shadows : String :=
  "contract C \x7b function f(uint a, bool) returns (uint b) \x7b uint a = 1; " ++
    "for (uint b = a; b < 9;) \x7b bool a = true; \x7d \x7d \x7d"

def shadowsOutput : Parameter := ⟨.named "uint", none, some ⟨"b", ⟨52, 53⟩⟩, ⟨47, 53⟩⟩

def shadowsLocal : LocalVariable := ⟨.named "bool", ⟨"a", ⟨101, 102⟩⟩, ⟨96, 102⟩⟩

def shadowsBody : Body where
  range := ⟨55, 114⟩
  locals := [⟨.named "uint", ⟨"a", ⟨62, 63⟩⟩, ⟨57, 63⟩⟩, ⟨.named "uint", ⟨"b", ⟨79, 80⟩⟩, ⟨74, 80⟩⟩,
    shadowsLocal]

def shadowsFunction : Function :=
  ⟨.function, ⟨"f", ⟨22, 23⟩⟩,
    [⟨.named "uint", none, some ⟨"a", ⟨29, 30⟩⟩, ⟨24, 30⟩⟩, ⟨.named "bool", none, none, ⟨32, 36⟩⟩],
    [shadowsOutput], some shadowsBody, ⟨13, 114⟩⟩

def shadowsContract : Contract :=
  ⟨.contract, false, ⟨"C", ⟨9, 10⟩⟩, [], [.function shadowsFunction], ⟨0, 116⟩⟩

def shadowsDeclared : Declared Function := ⟨shadowsFunction, ⟨0, some "C"⟩⟩

theorem Scope.grows_along_shadows :
    ∃ c ∈ (readOutline shadows).outline.contracts, ∃ f ∈ Declared.functions ⟨c, ⟨0, none⟩⟩,
      ∃ before behind, at? f 70 = some before ∧ at? f 105 = some behind ∧
        before.locals <+: behind.locals ∧ behind.locals <+: f.locals ∧
        (before.find? "b").map Variable.role = some .returned ∧
        (behind.find? "a").map Variable.range = some ⟨96, 102⟩ := by
  have hc : shadowsContract ∈ (readOutline shadows).outline.contracts := by decide +kernel
  have hg : shadowsDeclared ∈ Declared.functions ⟨shadowsContract, ⟨0, none⟩⟩ := List.mem_cons_self
  obtain ⟨-, hscopes, hgrow⟩ :=
    grows_along_function shadows ⟨shadowsContract, ⟨0, none⟩⟩ shadowsDeclared hc hg
  obtain ⟨before, hbefore, -, hfindBefore⟩ := hscopes 70 (by decide)
  obtain ⟨behind, hbehind, hall, hfindBehind⟩ := hscopes 105 (by decide)
  have hb : shadowsDeclared.Means "b" 70 (.ofParameter .returned "f" 0 shadowsOutput) :=
    .output (by decide) (by decide) (by decide)
  have ha : shadowsDeclared.Means "a" 105 (.ofLocal "f" 0 shadowsLocal) :=
    .latest ⟨by decide, rfl, by decide, by decide⟩
  refine ⟨shadowsContract, hc, shadowsDeclared, hg, before, behind, hbefore, hbehind,
    hgrow 70 105 before behind (by decide) hbefore hbehind, hall, ?_, ?_⟩
  · rw [(hfindBefore "b" _).1.mpr hb]
    rfl
  · rw [(hfindBehind "a" _).1.mpr ha]
    rfl

end SolidityCompass
