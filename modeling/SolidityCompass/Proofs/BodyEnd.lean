import SolidityCompass.Proofs.Faults
import SolidityCompass.Proofs.OutlineRanges

/-!
# Bodies end at their braces

The walk over a body counts braces, and at the start of a statement it jumps over whole
declarations. Where the brackets in a body nest, these jumps leave the count right, so the body ends
at the brace that matches its first one and its contract goes on behind that brace. Whether a body
is closed depends on the tokens behind its first brace alone, so an error that names the same brace
would come from a walk that found the matching one.
-/

namespace SolidityCompass

/-- Among the tokens of a text, `brace` opens the body and `inside` follows. -/
def Body.OpensAt (text : String) (b : Body) (brace : Token) (inside : List Token) : Prop :=
  (∃ before, significant text = before ++ brace :: inside) ∧ brace.kind = .opens .brace ∧
    brace.range.start = b.range.start

namespace Cursor

variable {c : Cursor} {body after : List Token} {close : Token}

/-- The walk over the tokens of a body that nest stops behind the brace that follows them. -/
theorem scanBody_of_nested (hr : c.rest = body ++ close :: after) (hbody : Nested body)
    (hclose : close.kind = .closes .brace) :
    (scanBody 0 .fresh c).closed = some close.range.stop ∧
      (scanBody 0 .fresh c).cursor = ⟨close.range.stop, after, c.textEnd⟩ := by
  obtain ⟨hclosed, hrest⟩ := scanBody_of_inside .fresh hclose (inside_of_nested hr hbody)
  have hpassed : (scanBody 0 .fresh c).cursor.passed = close.range.stop := by
    rcases scanBody_end 0 .fresh c with hend | ⟨hopen, -⟩
    · exact Option.some.inj (hend.symm.trans hclosed)
    · rw [hopen] at hclosed
      cases hclosed
  have htextEnd := (reaches_scanBody 0 .fresh c).textEnd_eq
  refine ⟨hclosed, ?_⟩
  rw [← hpassed, ← hrest, ← htextEnd]

/-- A cursor before a brace is known by where the brace starts. -/
theorem On.rest_advance_of_brace {text : String} {before inside : List Token} {brace : Token}
    (h : c.On (significant text)) (hk : c.sees (.opens .brace) = true)
    (hsplit : significant text = before ++ brace :: inside)
    (hstart : brace.range.start = c.here.start) : c.advance.rest = inside := by
  obtain ⟨t, ts, hr, -⟩ := rest_of_kind? (kind?_of_sees hk)
  obtain ⟨done, hdone, -⟩ := h
  rw [hr] at hdone
  have hsame : brace.range.start = t.range.start := by simpa [here, hr] using hstart
  obtain ⟨-, -, rfl⟩ := (ordered_significant text).split_unique hsplit hdone hsame
  simp [hr]

end Cursor

namespace Reading

variable {r : Reading} {body after : List Token} {close : Token}

theorem functionBody_of_nested (hr : r.cursor.advance.rest = body ++ close :: after)
    (hbody : Nested body) (hclose : close.kind = .closes .brace) :
    r.functionBody.1.range = ⟨r.here.start, close.range.stop⟩ ∧
      r.functionBody.2.cursor = ⟨close.range.stop, after, r.cursor.textEnd⟩ := by
  obtain ⟨hclosed, hcursor⟩ := Cursor.scanBody_of_nested hr hbody hclose
  unfold functionBody
  simp [hclosed, hcursor]

/-- An error about a body that is not closed comes from a walk over such a body. -/
theorem exists_seesOpenBody_of_mem_errors {text : String} {e : SyntaxError}
    (he : e ∈ (readOutline text).errors) (hf : e.fault = .unterminated .functionBody) :
    ∃ r, (start text).Reaches r ∧ r.SeesOpenBody ∧ e.range.start = r.here.start := by
  have hrun := (start text).runs_items
  rcases hrun.exists_seesOpenBody (List.mem_reverse.mp he) hf with hstray | hwalk
  · obtain ⟨t, -, rfl⟩ := List.mem_map.mp (List.mem_reverse.mp hstray)
    cases hf
  · exact hwalk

theorem not_seesOpenBody_of_nested {text : String} {before : List Token} {brace : Token}
    (hr : (start text).Reaches r)
    (hsplit : significant text = before ++ brace :: (body ++ close :: after))
    (hstart : brace.range.start = r.here.start) (hbody : Nested body)
    (hclose : close.kind = .closes .brace) : ¬ r.SeesOpenBody := by
  rintro ⟨hbrace, hopen⟩
  have hon := (Cursor.on_start text).reaches hr
  have hrest := hon.rest_advance_of_brace hbrace hsplit hstart
  rw [(Cursor.scanBody_of_nested hrest hbody hclose).1] at hopen
  cases hopen

end Reading

/-- A body whose brackets nest ends at the brace that matches its first one, with its function.
It is not reported as open, and its contract goes on with the token behind the brace. -/
theorem body_ends_at_matching_brace (text : String) (c : Contract) (f : Function) (b : Body)
    (hc : c ∈ (readOutline text).outline.contracts) (hf : .function f ∈ c.members)
    (hb : f.body = some b) :
    (∃ brace inside, b.OpensAt text brace inside) ∧
      ∀ brace body close after, b.OpensAt text brace (body ++ close :: after) → Nested body →
        close.kind = .closes .brace →
        b.range = ⟨brace.range.start, close.range.stop⟩ ∧
          f.range.stop = close.range.stop ∧
          (∀ e ∈ (readOutline text).errors, e.fault = .unterminated .functionBody →
            e.range.start ≠ brace.range.start) ∧
          ∃ r : Reading, r.cursor = ⟨close.range.stop, after, byteLength text.toList⟩ ∧
            c.ReadsOn (.function f) r := by
  obtain ⟨r, hr, hne, hmember, hreads⟩ := Reading.exists_member_of_mem hc hf
  obtain ⟨hfunction, hbehind⟩ := Reading.function_eq_of_member hmember
  obtain ⟨s, hs, hbrace, rfl, hrange, hend⟩ := Reading.function_body_cases hfunction hb
  have hin := (Reading.sound_start text).cursor.reaches
    (hr.trans (r.cursor.reaches_advance.trans hs))
  constructor
  · obtain ⟨brace, inside, hrest, hkind⟩ := Cursor.rest_of_kind? (Cursor.kind?_of_sees hbrace)
    obtain ⟨before, hbefore, -⟩ := hin.on
    refine ⟨brace, inside, ⟨before, by rw [hbefore, hrest]⟩, hkind, ?_⟩
    simp [Reading.functionBody_fst, Reading.here, Cursor.here, hrest]
  · rintro brace body close after ⟨⟨before, hsplit⟩, -, hstart⟩ hbody hclose
    rw [s.functionBody_fst] at hstart
    have hrest := hin.on.rest_advance_of_brace hbrace hsplit hstart
    obtain ⟨hclosed, hcursor⟩ := Reading.functionBody_of_nested hrest hbody hclose
    refine ⟨by rw [hclosed, hstart], by rw [hrange, Reading.rangeFrom, hcursor], ?_, ?_⟩
    · intro e he hfault hsame
      obtain ⟨t, ht, hopen, hplace⟩ := Reading.exists_seesOpenBody_of_mem_errors he hfault
      exact Reading.not_seesOpenBody_of_nested ht hsplit (hsame.symm.trans hplace) hbody hclose
        hopen
    · refine ⟨r.member.2, ?_, hreads⟩
      rw [hbehind, hend, hcursor, hin.textEnd]

def crowdedBody : String :=
  "contract C \x7b function f() \x7b g\x7bvalue: 1\x7d(S(\x7ba: 2\x7d)); assembly \x7b x := \x7d " ++
    "mapping (\x7b\x7d; uint) \x7d uint z; \x7d"

def crowded : Body := ⟨⟨26, 90⟩, []⟩

def crowdedFunction : Function :=
  ⟨.function, ⟨"f", ⟨22, 23⟩⟩, [], [], some crowded, ⟨13, 90⟩⟩

def crowdedContract : Contract :=
  ⟨.contract, false, ⟨"C", ⟨9, 10⟩⟩, [],
    [.function crowdedFunction, .variable ⟨.named "uint", ⟨"z", ⟨96, 97⟩⟩, ⟨91, 98⟩⟩], ⟨0, 100⟩⟩

/-- The body ends at its brace, the last but four of all tokens, and reading goes on with the state
variable behind it. -/
theorem body_ends_of_crowdedBody :
    ∃ c ∈ (readOutline crowdedBody).outline.contracts, ∃ f b, .function f ∈ c.members ∧
      f.body = some b ∧ b.range = ⟨26, 90⟩ ∧
      (∀ e ∈ (readOutline crowdedBody).errors, e.fault = .unterminated .functionBody →
        e.range.start ≠ 26) ∧
      ∃ r : Reading, r.cursor = ⟨90, (significant crowdedBody).drop 38, 100⟩ ∧
        c.ReadsOn (.function f) r := by
  have hc : crowdedContract ∈ (readOutline crowdedBody).outline.contracts := by decide +kernel
  have hf : .function crowdedFunction ∈ crowdedContract.members := List.mem_cons_self
  have hopens : crowded.OpensAt crowdedBody ⟨.opens .brace, "\x7b", ⟨26, 27⟩⟩
      (((significant crowdedBody).drop 8).take 29 ++
        ⟨.closes .brace, "\x7d", ⟨89, 90⟩⟩ :: (significant crowdedBody).drop 38) :=
    ⟨⟨(significant crowdedBody).take 7, by decide +kernel⟩, rfl, rfl⟩
  obtain ⟨hrange, -, herrors, r, hr, hreads⟩ :=
    (body_ends_at_matching_brace crowdedBody crowdedContract crowdedFunction crowded hc hf rfl).2
      _ _ _ _ hopens (by decide +kernel) rfl
  have hend : byteLength crowdedBody.toList = 100 := by decide +kernel
  rw [hend] at hr
  exact ⟨crowdedContract, hc, crowdedFunction, crowded, hf, rfl, hrange, herrors, r, hr, hreads⟩

end SolidityCompass
