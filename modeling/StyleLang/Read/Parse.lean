import StyleLang.Read.Lexeme
import StyleLang.Read.Reading
import StyleLang.Read.Skip

/-!
# Reading a text

A text is read token by token, each looked for where the one before it has led. A text that is not
grammatical has a syntax error, whatever flaws it has; any other has the tree that it spells, or its
first flaw. What is nested may be nested to any depth, as in the rest of a compilation.
-/

namespace StyleLang

namespace Reading

/-- Reads the rest of a text. `last` is the start of the token before it, `place` the place where it
starts. -/
def run (r : Reading) (last place : Cursor) (cs : List Char) : Except SyntaxError Reading :=
  let start := place.after (skip cs).1
  match h : (skip cs).2 with
  | [] => if r.isComplete then .ok r else .error (.unexpectedEnd last)
  | c :: cs' =>
    match hm : Match.ofText? r.place.allows (c :: cs') with
    | none => .error (.unknownCharacter c start)
    | some m =>
      let token : Token := ⟨m.kind, m.lexeme, start⟩
      have : m.rest.length < cs.length := by
        have h1 := Match.length_rest_lt hm
        have h2 := length_skip_le cs
        rw [h] at h2
        omega
      match r.step token with
      | none => .error (.unexpectedToken token)
      | some r => r.run start (start.after m.lexeme) m.rest
termination_by cs.length

/-- A run takes one token and goes on. -/
theorem run_eq (r : Reading) (last place : Cursor) (cs : List Char) :
    r.run last place cs =
      match (skip cs).2 with
      | [] => if r.isComplete then .ok r else .error (.unexpectedEnd last)
      | c :: cs' =>
        let start := place.after (skip cs).1
        match Match.ofText? r.place.allows (c :: cs') with
        | none => .error (.unknownCharacter c start)
        | some m =>
          match r.step ⟨m.kind, m.lexeme, start⟩ with
          | none => .error (.unexpectedToken ⟨m.kind, m.lexeme, start⟩)
          | some next => next.run start (start.after m.lexeme) m.rest := by
  rw [run]
  split
  · next h => simp only [h]
  · next c cs' h =>
    simp only [h]
    split
    · next hm => simp only [hm]
    · next m hm => simp only [hm]

end Reading

/-- The tree that a text spells. A syntax error comes before every flaw. -/
def Stylesheet.parse (source : String) : Except ReadError Stylesheet :=
  match ({} : Reading).run {} {} source.toList with
  | .error e => .error (.grammar e)
  | .ok r =>
    match r.flaw with
    | some flaw => .error (.build flaw)
    | none => .ok r.sheet

end StyleLang
