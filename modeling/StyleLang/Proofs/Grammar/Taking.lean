import StyleLang.Proofs.Grammar.Spelling
import StyleLang.Read.Parse

/-!
# Taking words

A reading takes words if it gets over every text of them with any gaps between, provided that what
comes after does not belong to the last word. Takings are put together word by word.
-/

namespace StyleLang

namespace Reading

/-- The reading gets from the front of every text of the words to its end, and what it has become
satisfies `P`. `ok` holds of the character after the text. -/
def Takes (r : Reading) (ws : List (List Char)) (ok : Char → Bool) (P : Reading → Prop) : Prop :=
  ∀ text rest, Spaced ws text → Follows ok rest → ∀ last place,
    ∃ r' last' place', P r' ∧ r.run last place (text ++ rest) = r'.run last' place' rest

end Reading

/-- Any character may follow. -/
def anything : Char → Bool := fun _ => true

/-- A character that cannot belong to an operand before it. -/
def afterOperand (c : Char) : Bool := TokenKind.reference.stopsAt c && TokenKind.scalar.stopsAt c

/-- Every text of the words, with whatever comes after it, goes on with a character of the class. -/
def Opens (ok : Char → Bool) (ws : List (List Char)) : Prop :=
  ∀ text rest, Spaced ws text → Follows ok (text ++ rest)

theorem opens_anything (ws : List (List Char)) : Opens anything ws := fun _ _ _ _ _ => rfl

theorem opens_cons {ok : Char → Bool} {c : Char} {cs : List Char} (hc : ok c = true)
    (hspace : ∀ d, isSpace d = true → ok d = true) (hslash : ok '/' = true)
    (ws : List (List Char)) : Opens ok ((c :: cs) :: ws) := by
  intro text rest h
  cases h with
  | cons hg _ =>
    cases hg with
    | nil => exact follows_cons hc _
    | space hd _ => exact follows_cons (hspace _ hd) _
    | comment hw _ =>
      obtain ⟨body, rfl, -⟩ := hw
      exact follows_cons hslash _

theorem opens_stopsAt {k : TokenKind} {c : Char} (hc : k.stopsAt c = true) (cs : List Char)
    (ws : List (List Char)) : Opens k.stopsAt ((c :: cs) :: ws) :=
  opens_cons hc (fun _ hd => TokenKind.stopsAt_space hd k) (TokenKind.stopsAt_slash k) ws

theorem opens_afterOperand {c : Char} (hc : afterOperand c = true) (cs : List Char)
    (ws : List (List Char)) : Opens afterOperand ((c :: cs) :: ws) := by
  refine opens_cons hc (fun d hd => ?_) (by decide) ws
  unfold afterOperand
  rw [TokenKind.stopsAt_space hd, TokenKind.stopsAt_space hd]
  rfl

namespace Reading

theorem Takes.mono {r : Reading} {ws : List (List Char)} {ok ok' : Char → Bool}
    {P P' : Reading → Prop} (h : r.Takes ws ok P) (hok : ∀ c, ok' c = true → ok c = true)
    (hP : ∀ r', P r' → P' r') : r.Takes ws ok' P' := by
  intro text rest ht hr last place
  obtain ⟨r', last', place', hr', he⟩ := h text rest ht (hr.mono hok) last place
  exact ⟨r', last', place', hP r' hr', he⟩

theorem takes_nil {r : Reading} {P : Reading → Prop} (h : P r) (ok : Char → Bool) :
    r.Takes [] ok P := by
  intro text rest ht _ last place
  cases ht
  exact ⟨r, last, place, h, rfl⟩

theorem Takes.append {r : Reading} {ws ws' : List (List Char)} {ok ok' : Char → Bool}
    {P Q : Reading → Prop} (h : r.Takes ws ok P) (hopens : Opens ok ws')
    (h' : ∀ r', P r' → r'.Takes ws' ok' Q) : r.Takes (ws ++ ws') ok' Q := by
  intro text rest ht hr last place
  obtain ⟨a, b, rfl, ha, hb⟩ := ht.split
  obtain ⟨r1, last1, place1, h1, he1⟩ := h a (b ++ rest) ha (hopens b rest hb) last place
  obtain ⟨r2, last2, place2, h2, he2⟩ := h' r1 h1 b rest hb hr last1 place1
  exact ⟨r2, last2, place2, h2, by rw [List.append_assoc, he1, he2]⟩

theorem Takes.cons {r : Reading} {w : List Char} {ws : List (List Char)} {ok ok' : Char → Bool}
    {P Q : Reading → Prop} (h : r.Takes [w] ok P) (hopens : Opens ok ws)
    (h' : ∀ r', P r' → r'.Takes ws ok' Q) : r.Takes (w :: ws) ok' Q :=
  h.append hopens h'

/-- A run takes the token after a gap, if it can come next. -/
theorem run_token {g cs : List Char} {m : Match} (r : Reading) (hg : Gap g)
    (hm : Match.ofText? r.place.allows cs = some m) (last place : Cursor) :
    r.run last place (g ++ cs) =
      match r.step ⟨m.kind, m.lexeme, place.after g⟩ with
      | none => .error (.unexpectedToken ⟨m.kind, m.lexeme, place.after g⟩)
      | some next => next.run (place.after g) ((place.after g).after m.lexeme) m.rest := by
  rw [run_eq, skip_token hg hm]
  cases cs with
  | nil => cases Match.length_rest_lt hm
  | cons c cs =>
    cases hstep : r.step ⟨m.kind, m.lexeme, place.after g⟩ <;> simp only [hm, hstep]

/-- A run reads a word after a gap if its class is looked for. -/
theorem run_word {r r' : Reading} {k : TokenKind} {g w rest : List Char} {place : Cursor}
    (hg : Gap g) (ha : r.place.allows k = true) (hw : k.Word w)
    (hfree : k = .name ∨ k = .reference →
      ∀ k', (k', w) ∈ TokenKind.keywords → r.place.allows k' = false)
    (hrest : Follows k.stopsAt rest) (hstep : r.step ⟨k, w, place.after g⟩ = some r')
    (last : Cursor) : r.run last place (g ++ (w ++ rest)) =
      r'.run (place.after g) ((place.after g).after w) rest := by
  rw [run_token r hg (Match.ofText?_word r.place.orderly_allows ha hw hrest hfree), hstep]

/-- A word is taken if its class is looked for and the token leads on. -/
theorem takes_word {r : Reading} {k : TokenKind} {w : List Char} {P : Reading → Prop}
    (ha : r.place.allows k = true) (hw : k.Word w)
    (hfree : k = .name ∨ k = .reference →
      ∀ k', (k', w) ∈ TokenKind.keywords → r.place.allows k' = false)
    (hstep : ∀ start, ∃ r', r.step ⟨k, w, start⟩ = some r' ∧ P r') :
    r.Takes [w] k.stopsAt P := by
  intro text rest ht hr last place
  cases ht with
  | @cons g w body ws hg hnil =>
    cases hnil
    obtain ⟨r', hr', hP⟩ := hstep (place.after g)
    refine ⟨r', place.after g, (place.after g).after w, hP, ?_⟩
    rw [List.append_nil, List.append_assoc, run_word hg ha hw hfree hr hr']

/-- `takes_word` for a word that is neither a name nor a variable and leads to one reading. -/
theorem takes_mark {r r' : Reading} {k : TokenKind} {w : List Char}
    (ha : r.place.allows k = true) (hk : k ≠ .name ∧ k ≠ .reference) (hw : k.Word w)
    (hstep : ∀ start, r.step ⟨k, w, start⟩ = some r') : r.Takes [w] k.stopsAt (· = r') :=
  takes_word ha hw (fun h => h.elim (fun h => absurd h hk.1) (fun h => absurd h hk.2))
    fun start => ⟨r', hstep start, rfl⟩

end Reading

end StyleLang
