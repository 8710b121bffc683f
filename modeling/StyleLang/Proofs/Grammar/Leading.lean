import StyleLang.Proofs.Grammar.Moves
import StyleLang.Proofs.Grammar.Tokens

/-!
# Tokens that lead on

Tokens lead from one reading to another if each is a word that makes a move from where the one
before it has led. Main statement: a text is read to its end if and only if its tokens lead there.
However small the gaps between them are, none is read as part of another.
-/

namespace StyleLang

/-- The token is a word of its class, and no keyword that is looked for at the place. -/
structure Place.Admits (place : Place) (t : Token) : Prop where
  word : t.kind.Word t.chars
  free : t.kind = .name ∨ t.kind = .reference →
    ∀ k, (k, t.chars) ∈ TokenKind.keywords → place.allows k = false

namespace Reading

inductive Leads : Reading → List Token → Reading → Prop where
  | nil (r : Reading) : Leads r [] r
  | cons {r next r' : Reading} {t : Token} {ts : List Token} : r.place.Admits t →
    Moves t r next → Leads next ts r' → Leads r (t :: ts) r'

namespace Leads

theorem one {r r' : Reading} {t : Token} (ha : r.place.Admits t) (hm : Moves t r r') :
    Leads r [t] r' := .cons ha hm (.nil r')

theorem append {r r' r'' : Reading} {ts us : List Token} (h : Leads r ts r')
    (h' : Leads r' us r'') : Leads r (ts ++ us) r'' := by
  induction h with
  | nil _ => exact h'
  | cons ha hm _ ih => exact .cons ha hm (ih h')

end Leads

/-! ## What is read leads on -/

theorem Reads.leads {r r' : Reading} {place : Cursor} {cs : List Char} {ts : List Token}
    (h : Reads r place cs ts r') : Laid place ts cs ∧ Leads r ts r' := by
  induction h with
  | @stop r place cs hend =>
    have hgap := gap_skip cs
    rw [← List.append_nil (skip cs).1, ← hend, skip_append] at hgap
    exact ⟨.nil hgap, .nil r⟩
  | @token r next r' place start cs m ts hstart hmatch hstep _ ih =>
    obtain ⟨hword, hfree⟩ := Match.ofText?_sound hmatch
    refine ⟨?_, .cons ⟨hword, hfree⟩ (step_eq_some_iff.1 hstep) ih.2⟩
    have htext : cs = (skip cs).1 ++ (m.lexeme ++ m.rest) := by
      rw [← Match.splits hmatch, skip_append]
    rw [htext]
    exact .cons (gap_skip cs) hstart ih.1

/-! ## What leads on is read -/

/-- A gap, and what comes after it, goes on with a character that does not belong to a word of the
class, if what comes after it does. -/
theorem follows_gap {gap rest : List Char} (h : Gap gap) {k : TokenKind}
    (hrest : Follows k.stopsAt rest) : Follows k.stopsAt (gap ++ rest) := by
  cases h with
  | nil => exact hrest
  | space hc _ => exact follows_cons (TokenKind.stopsAt_space hc k) _
  | comment hw _ =>
    obtain ⟨body, rfl, -⟩ := hw
    exact follows_cons (TokenKind.stopsAt_slash k) _

/-- No token is read as part of the one before it. -/
theorem Leads.follows {r r' : Reading} {place : Cursor} {cs : List Char} {ts : List Token}
    (h : Leads r ts r') (hlaid : Laid place ts cs) {kind : TokenKind}
    (hcloses : Closes r.place kind) : Follows kind.stopsAt cs := by
  cases hlaid with
  | nil hgap =>
    rw [← List.append_nil cs]
    exact follows_gap hgap (follows_nil _)
  | cons hgap _ _ =>
    cases h with
    | cons ha hm _ =>
      obtain ⟨c, w, hw, hc⟩ := TokenKind.start_of_word ha.word
      rw [hw]
      exact follows_gap hgap (follows_cons (hcloses _ hm.allowed c hc) _)

theorem run_gap {r : Reading} {gap : List Char} (h : Gap gap) (hcomplete : r.isComplete = true)
    (last place : Cursor) : r.run last place gap = .ok r := by
  have hskip := skip_gap h (follows_nil _)
  rw [List.append_nil] at hskip
  rw [run_eq, hskip]
  exact if_pos hcomplete

theorem run_of_leads {r r' : Reading} {place : Cursor} {cs : List Char} {ts : List Token}
    (h : Leads r ts r') (hlaid : Laid place ts cs) (hcomplete : r'.isComplete = true)
    (last : Cursor) : r.run last place cs = .ok r' := by
  induction h generalizing last place cs with
  | nil r =>
    cases hlaid with
    | nil hgap => exact run_gap hgap hcomplete last place
  | @cons r next r' t ts ha hm hrest ih =>
    cases hlaid with
    | @cons _ gap rest _ _ hgap hstart hlaid =>
      obtain ⟨k, w, start⟩ := t
      obtain rfl : start = place.after gap := hstart
      rw [run_word hgap hm.allowed ha.word ha.free (hrest.follows hlaid hm.closes)
        (step_eq_some_iff.2 hm)]
      exact ih hlaid hcomplete _

/-- A text is read to its end if and only if its tokens lead there. -/
theorem run_eq_ok_iff {r r' : Reading} {last place : Cursor} {cs : List Char} :
    r.run last place cs = .ok r' ↔
      ∃ ts, Laid place ts cs ∧ Leads r ts r' ∧ r'.isComplete = true := by
  constructor
  · intro h
    obtain ⟨⟨ts, hts⟩, hcomplete⟩ := reads_of_run h
    exact ⟨ts, hts.leads.1, hts.leads.2, hcomplete⟩
  · rintro ⟨ts, hlaid, hleads, hcomplete⟩
    exact run_of_leads hleads hlaid hcomplete last

end Reading

end StyleLang
