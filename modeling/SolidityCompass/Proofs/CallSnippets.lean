import SolidityCompass.Editor.Suggestion
import SolidityCompass.Proofs.DisplayedTypes
import SolidityCompass.Proofs.Items
import SolidityCompass.Proofs.SnippetGrammar

/-!
# Suggested calls

A function or an event is suggested as a call with a slot for each argument. What is shown in the
slots are names and displayed types, and neither has a brace or a backslash in it, so every argument
has its slot. But a name may have a dollar sign in it, and the call is inserted as it is shown only
if no dollar sign stands in front of a letter, a digit or an underscore.
-/

namespace SolidityCompass

/-! ## Names are words -/

structure Name.IsWord (name : Name) : Prop where
  nonempty : name.text ≠ ""
  isIdentPart : ∀ c ∈ name.text.toList, isIdentPart c = true

def Worded (params : List Parameter) : Prop :=
  ∀ p ∈ params, ∀ name ∈ p.name, name.IsWord

/-- The names in the head of a function or an event are words. -/
def Member.Worded : Member → Prop
  | .function f => f.name.IsWord ∧ SolidityCompass.Worded f.params
  | .event e => e.name.IsWord ∧ SolidityCompass.Worded e.params
  | _ => True

theorem Name.isWord_mk {word : String} {range : ByteRange} (hne : word ≠ "")
    (h : word.toList.all isIdentPart = true) : Name.IsWord ⟨word, range⟩ :=
  ⟨hne, List.all_eq_true.mp h⟩

theorem Cursor.In.isWord_of_name? {text : String} {c d : Cursor} {name : Name} (h : c.In text)
    (hn : c.name? = some (name, d)) : name.IsWord := by
  obtain ⟨t, ts, hr, hkind, rfl, -⟩ := name?_eq_some hn
  have hmem := h.mem_significant (t := t) (by simp [hr])
  exact ⟨Token.text_ne_empty hmem, Token.isIdentPart_of_isName hmem hkind⟩

namespace Reading

variable {text : String} {r s : Reading}

theorem isWord_of_expectName (h : r.cursor.In text) {role : NameRole} {name : Name}
    (hn : r.expectName role = (some name, s)) : name.IsWord := by
  unfold expectName at hn
  split at hn
  next found c hc =>
    cases hn
    exact h.isWord_of_name? hc
  next => cases hn

theorem worded_parameter (h : r.cursor.In text) : Worded r.parameter.1.toList := by
  intro p hp
  rw [Option.mem_toList] at hp
  unfold parameter at hp
  split at hp
  next => cases hp
  next type s hs =>
    have hreach := (reaches_of_typeName hs).trans
      (s.cursor.reaches_skipLocation.trans (Cursor.reaches_skipWords ["indexed"] _))
    dsimp only at hp
    split at hp
    next name c hn =>
      cases hp
      rintro found ⟨⟩
      exact (h.reaches hreach).isWord_of_name? hn
    next =>
      cases hp
      simp

theorem worded_parameters (h : r.cursor.In text) : Worded r.parameters.1 := by
  fun_induction parameters r with
  | case1 => simp [Worded]
  | case2 r _ c hc _ _ ih =>
    have hnext := h.reaches (r.reaches_parameter.trans (Cursor.passes_of_eat? hc).reaches)
    exact List.forall_mem_append.mpr ⟨worded_parameter h, ih hnext⟩
  | case3 r => exact worded_parameter h

theorem worded_of_parameterList (h : r.cursor.In text) {params : List Parameter}
    (hparams : r.parameterList = (some params, s)) : Worded params := by
  unfold parameterList at hparams
  split at hparams
  · cases hparams
    exact worded_parameters (show r.advance.cursor.In text from h.advance)
  · cases hparams

theorem isWord_of_functionName (h : r.cursor.In text) {entry : FunctionKind × Name}
    (hn : r.functionName = (some entry, s)) : entry.2.IsWord := by
  unfold functionName at hn
  dsimp only at hn
  split at hn
  next =>
    cases hn
    exact Name.isWord_mk (by decide) (by decide)
  next =>
    cases hn
    exact Name.isWord_mk (by decide) (by decide)
  next =>
    cases hn
    exact Name.isWord_mk (by decide) (by decide)
  next =>
    split at hn
    next =>
      cases hn
      exact Name.isWord_mk (by decide) (by decide)
    next =>
      obtain ⟨name, t, ht⟩ : ∃ name t, r.advance.expectName .function = (name, t) := ⟨_, _, rfl⟩
      rw [ht] at hn
      cases name with
      | none => cases hn
      | some name =>
        cases hn
        exact isWord_of_expectName h.advance ht

theorem worded_function (h : r.cursor.In text) :
    ∀ f ∈ r.function.1, Member.Worded (.function f) := by
  unfold function
  split
  next => simp
  next kind name s hs =>
    have hname : name.IsWord := isWord_of_functionName h hs
    have hin := h.advance.reaches (reaches_of_functionName hs)
    split
    next => simp
    next params s' hs' =>
      have hparams := worded_of_parameterList hin hs'
      dsimp only
      split
      next =>
        rintro f ⟨⟩
        exact ⟨hname, hparams⟩
      next =>
        rintro f ⟨⟩
        exact ⟨hname, hparams⟩

theorem worded_event (h : r.cursor.In text) : ∀ e ∈ r.event.1, Member.Worded (.event e) := by
  unfold event
  split
  next => simp
  next name s hs =>
    have hname := isWord_of_expectName h.advance hs
    have hin := h.advance.reaches (reaches_of_expectName hs)
    split
    next => simp
    next params s' hs' =>
      rintro e ⟨⟩
      exact ⟨hname, worded_of_parameterList hin hs'⟩

theorem worded_member (h : r.cursor.In text) : ∀ m ∈ r.member.1, m.Worded := by
  unfold member
  split
  next => simpa using worded_function h
  next => simpa using worded_function h
  next => simpa using worded_event h
  next => simp [Member.Worded]
  next => simp [Member.Worded]
  next => simp [Member.Worded]
  next => simp
  next =>
    split
    next => simpa using worded_function h
    next =>
      split
      next => simp
      next => simp [Member.Worded]

theorem worded_contract (h : r.cursor.In text) {c : Contract} (hc : r.contract.1 = some c) :
    ∀ m ∈ c.members, m.Worded := by
  obtain ⟨s, named, hbody, hmembers, -⟩ := contract_cases hc
  obtain ⟨u, rfl, -, hreach⟩ := exists_brace_of_body? hbody
  intro m hm
  rw [hmembers] at hm
  obtain ⟨v, hv, -, hmember, -⟩ := exists_of_mem_block hm
  exact worded_member ((h.reaches hreach).advance.reaches hv) m hmember

end Reading

/-- In every outline the names in the heads of functions and events are words. -/
theorem worded_outline {text : String} {c : Contract}
    (h : c ∈ (readOutline text).outline.contracts) : ∀ m ∈ c.members, m.Worded := by
  obtain ⟨r, hwalk, hc⟩ := Reading.exists_walks_of_mem_contracts h
  exact Reading.worded_contract ((Reading.sound_start text).cursor.reaches hwalk.reaches) hc

/-! ## What is shown in a slot -/

theorem isBare_of_isIdentPart {c : Char} (h : isIdentPart c = true) :
    SnippetMark.isBare c = true := by
  rw [SnippetMark.isBare_iff]
  refine ⟨?_, ?_, ?_⟩ <;> rintro rfl <;> exact absurd h (by decide)

open SnippetMark

theorem isBare_append {a b : String} : IsBare (a ++ b) ↔ IsBare a ∧ IsBare b := by
  simp only [IsBare, String.toList_append, List.forall_mem_append]

theorem Name.IsWord.isBare {name : Name} (h : name.IsWord) : IsBare name.text :=
  fun c hc => isBare_of_isIdentPart (h.isIdentPart c hc)

theorem TypeRef.IsTypeWord.isBare {name : String} (h : IsTypeWord name) : IsBare name := by
  rcases h with hpath | rfl
  · intro c hc
    have hchar := hpath c hc
    simp only [isPathChar, Bool.or_eq_true, decide_eq_true_eq] at hchar
    rcases hchar with hchar | rfl
    · exact isBare_of_isIdentPart hchar
    · decide
  · exact List.all_eq_true.mp (by decide)

/-- The text of a type has no braces, whatever its names. -/
theorem TypeRef.Legible.isBare_display {type : TypeRef} (h : type.Legible) :
    IsBare type.display := by
  have hbrackets (isArray : Bool) : IsBare (if isArray then "[]" else "") := by
    cases isArray <;> exact List.all_eq_true.mp (by decide)
  have hmapping : IsBare "mapping(" := List.all_eq_true.mp (by decide)
  have harrow : IsBare " => " := List.all_eq_true.mp (by decide)
  have hclose : IsBare ")" := List.all_eq_true.mp (by decide)
  induction type with
  | named name isArray => exact isBare_append.mpr ⟨h.isBare, hbrackets isArray⟩
  | mapping key value isArray hkey hvalue =>
    simp only [display, isBare_append]
    exact ⟨⟨⟨⟨⟨hmapping, hkey h.1⟩, harrow⟩, hvalue h.2⟩, hclose⟩, hbrackets isArray⟩

def Parameter.shown (p : Parameter) : String :=
  (p.name.map Name.text).getD (TypeRef.ofTypeName p.type).display

theorem defaults_of_worded {params : List Parameter} (h : Worded params) (role : VariableRole)
    (container : String) (file : Nat) :
    Suggestion.defaults (params.map (.ofParameter role container file)) =
      params.map Parameter.shown := by
  rw [Suggestion.defaults, List.map_map]
  refine List.map_congr_left fun p hp => ?_
  cases hname : p.name with
  | none => simp [Variable.ofParameter, Parameter.shown, hname]
  | some name =>
    have hne := (h p hp name hname).nonempty
    simp [Variable.ofParameter, Parameter.shown, hname, hne]

/-- What is shown for a parameter has no braces. -/
theorem isBare_shown {text : String} {params : List Parameter} (h : Worded params)
    (htypes : ∀ p ∈ params, p.type.ReadIn text) : ∀ a ∈ params.map Parameter.shown, IsBare a := by
  intro a ha
  obtain ⟨p, hp, rfl⟩ := List.mem_map.mp ha
  cases hname : p.name with
  | none => simpa [Parameter.shown, hname] using (htypes p hp).legible.isBare_display
  | some name => simpa [Parameter.shown, hname] using (h p hp name hname).isBare

/-! ## Calls -/

namespace Snippet

def marks (snippet : Snippet) : List SnippetMark :=
  snippetMarks 0 snippet.render.toList

/-- The snippet refers to no variable, and with the defaults of its slots it is the text. -/
def ExpandsTo (snippet : Snippet) (text : String) : Prop :=
  names snippet.marks = [] ∧ ∀ valueOf, expansion valueOf snippet.marks = text.toList

end Snippet

namespace Suggestion

/-- The suggestion inserts a call with a slot for each argument, in their order. The call is
inserted as it is shown if and only if no dollar sign in its name or in an argument comes before a
letter, a digit or an underscore. -/
def InsertsCall (s : Suggestion) (name : String) (arguments : List String) : Prop :=
  ∃ snippet, s.insertion = some (.snippet snippet) ∧
    slots snippet.marks = List.range' 1 arguments.length ∧
    (snippet.ExpandsTo (name ++ "(" ++ ", ".intercalate arguments ++ ");") ↔
      IsInert name.toList ∧ ∀ a ∈ arguments, IsInert a.toList)

theorem insertsCall {s : Suggestion} {name : String} {arguments : List String}
    (hs : s.insertion = some (.snippet (.call name arguments ";"))) (hname : IsBare name)
    (harguments : ∀ a ∈ arguments, IsBare a) : s.InsertsCall name arguments := by
  refine ⟨_, hs, ?_⟩
  rw [Snippet.ExpandsTo, Snippet.marks, snippetMarks_call hname harguments]
  refine ⟨slots_callMarks hname harguments, ?_⟩
  rw [← shows_callMarks hname harguments, Shows]
  refine and_congr_right fun hnames => ?_
  simp only [expansion_of_names hnames, forall_const]

end Suggestion

theorem Declared.exists_of_mem_members {α : Type} {c : Declared Contract} {d : Declared α}
    {pick : Member → Option α} (h : d ∈ c.members pick) :
    ∃ m ∈ c.decl.members, pick m = some d.decl := by
  obtain ⟨decl, hdecl, rfl⟩ := List.mem_map.mp h
  exact List.mem_filterMap.mp hdecl

/-- Every function and every event of a contract is suggested as a call. -/
theorem suggested_calls_expand_iff (text : String) (c : Declared Contract)
    (hc : c.decl ∈ (readOutline text).outline.contracts) :
    (∀ f ∈ c.functions, ∀ isExtension : Bool,
      (Suggestion.ofFunction f isExtension).InsertsCall f.decl.name.text
        ((if isExtension then f.decl.params.tail else f.decl.params).map Parameter.shown)) ∧
    ∀ e ∈ c.events, (Suggestion.ofEvent e).InsertsCall e.decl.name.text
      (e.decl.params.map Parameter.shown) := by
  have hwords := worded_outline hc
  have htypes {m : Member} (hm : m ∈ c.decl.members) : ∀ t ∈ m.types, t.ReadIn text := fun t ht =>
    readIn_outline (Outline.mem_contracts.mp hc) (List.mem_flatMap.mpr ⟨m, hm, ht⟩)
  constructor
  · intro f hf isExtension
    obtain ⟨m, hm, hpick⟩ := Declared.exists_of_mem_members hf
    obtain rfl : m = .function f.decl := by cases m <;> simp_all
    obtain ⟨hname, hparams⟩ := hwords _ hm
    let params := if isExtension then f.decl.params.tail else f.decl.params
    have hsub : ∀ p ∈ params, p ∈ f.decl.params := by
      cases isExtension
      · exact fun p hp => hp
      · exact fun p hp => List.mem_of_mem_tail hp
    have hshown : Worded params := fun p hp => hparams p (hsub p hp)
    have hread : ∀ p ∈ params, p.type.ReadIn text := fun p hp =>
      htypes hm _ (by simp [Member.types, Function.types, List.mem_map_of_mem (hsub p hp)])
    refine Suggestion.insertsCall ?_ hname.isBare (isBare_shown hshown hread)
    rw [← defaults_of_worded hshown .parameter f.decl.name.text f.home.file]
    cases isExtension
    · rfl
    · rw [show params = f.decl.params.tail from rfl, List.map_tail]
      rfl
  · intro e he
    obtain ⟨m, hm, hpick⟩ := Declared.exists_of_mem_members he
    obtain rfl : m = .event e.decl := by cases m <;> simp_all
    obtain ⟨hname, hparams⟩ := hwords _ hm
    have hread : ∀ p ∈ e.decl.params, p.type.ReadIn text := fun p hp =>
      htypes hm _ (List.mem_map_of_mem hp)
    refine Suggestion.insertsCall ?_ hname.isBare (isBare_shown hparams hread)
    rw [← defaults_of_worded hparams .eventParameter e.decl.name.text e.home.file]
    rfl

def till : String :=
  "library Till \x7b event Paid(address, uint $); " ++
    "function pay(Till.Cut[] cuts, address payable) \x7b \x7d \x7d"

def tillPaid : Event :=
  ⟨⟨"Paid", ⟨21, 25⟩⟩, [⟨.named "address", none, none, ⟨26, 33⟩⟩,
    ⟨.named "uint", none, some ⟨"$", ⟨40, 41⟩⟩, ⟨35, 41⟩⟩], ⟨15, 43⟩⟩

def tillPay : Function :=
  ⟨.function, ⟨"pay", ⟨53, 56⟩⟩,
    [⟨.array (.named "Till.Cut") none, none, some ⟨"cuts", ⟨68, 72⟩⟩, ⟨57, 72⟩⟩,
      ⟨.named "address payable", none, none, ⟨74, 89⟩⟩], [], some ⟨⟨91, 94⟩, []⟩, ⟨44, 94⟩⟩

def tillLibrary : Declared Contract where
  decl := ⟨.library, false, ⟨"Till", ⟨8, 12⟩⟩, [], [.event tillPaid, .function tillPay], ⟨0, 96⟩⟩
  home := ⟨0, none⟩

theorem suggested_calls_expand_of_till :
    ∃ c : Declared Contract, c.decl ∈ (readOutline till).outline.contracts ∧
      (∃ f ∈ c.functions, ∃ plain extension : Snippet,
        (Suggestion.ofFunction f false).insertion = some (.snippet plain) ∧
        plain.ExpandsTo "pay(cuts, address payable);" ∧
        (Suggestion.ofFunction f true).insertion = some (.snippet extension) ∧
        extension.ExpandsTo "pay(address payable);") ∧
      ∃ e ∈ c.events, ∃ snippet : Snippet,
        (Suggestion.ofEvent e).insertion = some (.snippet snippet) ∧
        snippet.ExpandsTo "Paid(address, $);" := by
  have hc : tillLibrary.decl ∈ (readOutline till).outline.contracts := by decide +kernel
  have hf : ⟨tillPay, ⟨0, some "Till"⟩⟩ ∈ tillLibrary.functions := by decide
  have he : ⟨tillPaid, ⟨0, some "Till"⟩⟩ ∈ tillLibrary.events := by decide
  obtain ⟨hfunctions, hevents⟩ := suggested_calls_expand_iff till tillLibrary hc
  obtain ⟨plain, hplain, -, hexpands⟩ := hfunctions _ hf false
  obtain ⟨extension, hextension, -, hrest⟩ := hfunctions _ hf true
  obtain ⟨snippet, hsnippet, -, hevent⟩ := hevents _ he
  refine ⟨tillLibrary, hc,
    ⟨_, hf, plain, extension, hplain, hexpands.mpr ?_, hextension, hrest.mpr ?_⟩,
    _, he, snippet, hsnippet, hevent.mpr ?_⟩
  · decide
  · decide
  · decide

def payNow : String :=
  "contract C \x7b function pay$now(uint amount) public \x7b \x7d \x7d"

def payNowFunction : Function :=
  ⟨.function, ⟨"pay$now", ⟨22, 29⟩⟩,
    [⟨.named "uint", none, some ⟨"amount", ⟨35, 41⟩⟩, ⟨30, 41⟩⟩], [], some ⟨⟨50, 53⟩, []⟩, ⟨13, 53⟩⟩

def payNowContract : Declared Contract where
  decl := ⟨.contract, false, ⟨"C", ⟨9, 10⟩⟩, [], [.function payNowFunction], ⟨0, 55⟩⟩
  home := ⟨0, none⟩

/-- An editor takes the second half of the name for a variable. -/
theorem pay_suggestion_refers_to_now :
    ∃ c : Declared Contract, c.decl ∈ (readOutline payNow).outline.contracts ∧
      ∃ f ∈ c.functions, f.decl.name.text = "pay$now" ∧ ∃ snippet : Snippet,
        (Suggestion.ofFunction f false).insertion = some (.snippet snippet) ∧
        snippet.render = "pay$now($\x7b1:amount\x7d);" ∧ names snippet.marks = ["now"] ∧
        ¬snippet.ExpandsTo "pay$now(amount);" := by
  have hc : payNowContract.decl ∈ (readOutline payNow).outline.contracts := by decide +kernel
  have hf : ⟨payNowFunction, ⟨0, some "C"⟩⟩ ∈ payNowContract.functions := by decide
  have hnames : names (Snippet.call "pay$now" ["amount"] ";").marks = ["now"] := by decide +kernel
  refine ⟨payNowContract, hc, _, hf, rfl, _, rfl, by decide, hnames, fun h => ?_⟩
  exact absurd (hnames.symm.trans h.1) (by simp)

end SolidityCompass
