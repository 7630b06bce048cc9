import SolidityCompass.Proofs.ErasedReadings
import SolidityCompass.Proofs.Faults

/-!
# Layout does not change the outline

Two texts whose significant tokens are spelled alike have the same declarations once their places
are erased, and reading them meets the same faults. White space, comments and characters that begin
no token may differ between the texts in any way; each of the latter is reported before all else.
-/

namespace SolidityCompass

def strayErrors (text : String) : List SyntaxError :=
  ((tokenize text).filter fun t => t.kind = .error).map fun t => ⟨.unexpectedCharacter, t.range⟩

namespace Reading

/-- The start of reading a text as if it had no stray characters. -/
def cleanStart (text : String) : Reading := ⟨(start text).cursor, []⟩

theorem faults_start (text : String) : (start text).faults = (strayErrors text).reverse := rfl

/-- Stray characters are errors that were met before reading began. -/
theorem erase_start (text : String) :
    (start text).erase [] =
      (cleanStart text).erase ((strayErrors text).reverse.map SyntaxError.erase) := by
  rw [erase, List.append_nil]
  rfl

theorem items_start (text : String) :
    (start text).items.1.map Item.erase = (cleanStart text).items.1.map Item.erase ∧
      ∃ own, (start text).items.2.faults = own ++ (strayErrors text).reverse ∧
        own.map SyntaxError.erase = (cleanStart text).items.2.faults.map SyntaxError.erase := by
  have hitems := congrArg items (erase_start text)
  rw [items_erase, items_erase] at hitems
  refine ⟨congrArg Prod.fst hitems, ?_⟩
  obtain ⟨own, hown⟩ := (runs_items (start text)).keeps
  rw [faults_start] at hown
  refine ⟨own, hown.symm, ?_⟩
  have hfaults := congrArg (fun found => found.2.faults) hitems
  dsimp only [eraseFound, erase] at hfaults
  rw [List.append_nil, ← hown, List.map_append] at hfaults
  exact List.append_cancel_right hfaults

theorem erase_cursor_start {text text' : String}
    (h : (significant text).map Token.spelling = (significant text').map Token.spelling) :
    (start text).cursor.erase = (start text').cursor.erase := by
  have herase (ts : List Token) :
      ts.map Token.erase = (ts.map Token.spelling).map fun w => ⟨w.kind, w.text, .empty 0⟩ := by
    rw [List.map_map]
    rfl
  have hrest : (significant text).map Token.erase = (significant text').map Token.erase := by
    rw [herase, herase, h]
  exact congrArg (fun rest => Cursor.mk 0 rest 0) hrest

end Reading

open Reading in
/-- Layout does not change the outline. Texts whose significant tokens have the same kinds and
texts have the same declarations up to their places; their errors begin with one for each stray
token, and the messages of the others are the same. -/
theorem readOutline_of_layout {text text' : String}
    (h : (significant text).map Token.spelling = (significant text').map Token.spelling) :
    (readOutline text).outline.erase = (readOutline text').outline.erase ∧
      ∃ own own', (readOutline text).errors = strayErrors text ++ own ∧
        (readOutline text').errors = strayErrors text' ++ own' ∧
        own.map SyntaxError.message = own'.map SyntaxError.message := by
  obtain ⟨hitems, own, hfaults, hown⟩ := items_start text
  obtain ⟨hitems', own', hfaults', hown'⟩ := items_start text'
  have hclean : (cleanStart text).erase [] = (cleanStart text').erase [] :=
    congrArg (fun c => Reading.mk c []) (erase_cursor_start h)
  have hread := congrArg items hclean
  rw [items_erase, items_erase] at hread
  have hmessages (es : List SyntaxError) :
      es.reverse.map SyntaxError.message =
        ((es.map SyntaxError.erase).map SyntaxError.message).reverse := by
    rw [List.map_map, List.map_reverse]
    rfl
  refine ⟨?_, own.reverse, own'.reverse, ?_, ?_, ?_⟩
  · exact congrArg Outline.mk (hitems.trans ((congrArg Prod.fst hread).trans hitems'.symm))
  · rw [readOutline, hfaults, List.reverse_append, List.reverse_reverse]
  · rw [readOutline, hfaults', List.reverse_append, List.reverse_reverse]
  · have hsame := congrArg (fun found => found.2.faults) hread
    simp only [erase, List.append_nil, ← hown, ← hown'] at hsame
    rw [hmessages, hmessages, hsame]

-- White space, comments and a stray character around an enum that lacks its name.
theorem readOutline_of_layout_stray :
    (significant "contract C\x7benum\x7bA\x7d\x7d").map Token.spelling =
        (significant "contract/**/C\n§\x7benum \x7bA\x7d//\n\x7d").map Token.spelling ∧
      (readOutline "contract C\x7benum\x7bA\x7d\x7d").outline.erase =
        (readOutline "contract/**/C\n§\x7benum \x7bA\x7d//\n\x7d").outline.erase ∧
      ∃ own own', (readOutline "contract C\x7benum\x7bA\x7d\x7d").errors =
          strayErrors "contract C\x7benum\x7bA\x7d\x7d" ++ own ∧
        (readOutline "contract/**/C\n§\x7benum \x7bA\x7d//\n\x7d").errors =
          strayErrors "contract/**/C\n§\x7benum \x7bA\x7d//\n\x7d" ++ own' ∧
        own.map SyntaxError.message = own'.map SyntaxError.message := by
  have h : (significant "contract C\x7benum\x7bA\x7d\x7d").map Token.spelling =
      (significant "contract/**/C\n§\x7benum \x7bA\x7d//\n\x7d").map Token.spelling := by
    decide +kernel
  exact ⟨h, readOutline_of_layout h⟩

end SolidityCompass
