import StyleLang.Proofs.Grammar.Spelling
import StyleLang.Read.Reading

/-!
# Derivations

The grammar as relations between trees with their positions and the tokens that they are read from.
An operation stands where its left operand stands and a rule where its first selector stands; every
other node stands where its first token stands. A number may have any number of digits here and an
assigned name may have hyphens: whether a tree takes them is not a matter of the grammar.
-/

namespace StyleLang

/-- The token is a word of the class. -/
structure Token.Is (t : Token) (k : TokenKind) : Prop where
  kind : t.kind = k
  word : k.Word t.chars

/-! ## Tokens in a text -/

/-- The tokens stand in the text, each where it starts, with gaps around them. -/
inductive Laid : Cursor → List Token → List Char → Prop where
  | nil {place : Cursor} {gap : List Char} : Gap gap → Laid place [] gap
  | cons {place : Cursor} {gap rest : List Char} {t : Token} {ts : List Token} : Gap gap →
    t.start = place.after gap → Laid (t.start.after t.chars) ts rest →
    Laid place (t :: ts) (gap ++ (t.chars ++ rest))

/-- The line of a place is one more than the line feeds before it, and its column one more than the
characters since the last of them. -/
theorem Cursor.after_start (cs : List Char) : ({} : Cursor).after cs =
    ⟨cs.count '\n' + 1, (cs.reverse.takeWhile (· != '\n')).length + 1⟩ := by
  generalize hrev : cs.reverse = rev
  induction rev generalizing cs with
  | nil =>
    obtain rfl := List.reverse_eq_nil_iff.1 hrev
    rfl
  | cons c rev ih =>
    obtain rfl := List.reverse_eq_cons_iff.1 hrev
    rw [after_append, ih rev.reverse (List.reverse_reverse rev)]
    by_cases hc : c = '\n'
    · subst hc
      simp [after, next]
    · simp [after, next, hc]

/-- The token stands in the text where it says: its line is one more than the line feeds before it,
and its column one more than the characters between the last of them and the token. -/
def Token.StandsIn (t : Token) (source : String) : Prop :=
  ∃ seen rest, source.toList = seen ++ (t.chars ++ rest) ∧
    t.start = ⟨seen.count '\n' + 1, (seen.reverse.takeWhile (· != '\n')).length + 1⟩

theorem Laid.exists_seen {place : Cursor} {ts : List Token} {cs : List Char}
    (h : Laid place ts cs) {t : Token} (ht : t ∈ ts) :
    ∃ seen rest, cs = seen ++ (t.chars ++ rest) ∧ t.start = place.after seen := by
  induction h with
  | nil _ => cases ht
  | @cons place gap rest u us _ hstart _ ih =>
    rcases List.mem_cons.1 ht with rfl | ht
    · exact ⟨gap, rest, rfl, hstart⟩
    · obtain ⟨seen, rest', rfl, hseen⟩ := ih ht
      refine ⟨gap ++ (u.chars ++ seen), rest', by simp, ?_⟩
      rw [hseen, hstart, Cursor.after_append, Cursor.after_append]

/-! ## Marks -/

/-- The token for an operator. -/
def Operator.mark : Operator → TokenKind
  | add => .plus
  | subtract => .minus
  | multiply => .star

def Bracket.left : Bracket → TokenKind
  | square => .leftBracket
  | round => .leftParen

def Bracket.right : Bracket → TokenKind
  | square => .rightBracket
  | round => .rightParen

namespace Derived

open Reserve (keywords)

/-! ## Expressions -/

/-- The token of a literal or a reference. -/
structure Atom (n : Node) (t : Token) : Prop where
  word : t.kind.Word t.chars
  free : t.kind = .reference → ¬ keywords .operand t.chars
  node : t.operand? = some n

inductive Product : Node → List Token → Prop where
  | atom {n : Node} {t : Token} : Atom n t → Product n [t]
  | times {l r : Node} {ts : List Token} {star t : Token} : Product l ts →
    star.Is Operator.multiply.mark → Atom r t →
    Product (.operation l.position .multiply l r) (ts ++ [star, t])

inductive Expression : Node → List Token → Prop where
  | product {n : Node} {ts : List Token} : Product n ts → Expression n ts
  | sum {l r : Node} {op : Operator} {ts us : List Token} {sign : Token} : Expression l ts →
    op ≠ .multiply → sign.Is op.mark → Product r us →
    Expression (.operation l.position op l r) (ts ++ sign :: us)

inductive Condition : Node → List Token → Prop where
  | mk {bracket : Bracket} {left right : Token} {c : Node} {ts : List Token} :
    left.Is bracket.left → Expression c ts → right.Is bracket.right →
    Condition c (left :: (ts ++ [right]))

/-! ## Statements -/

/-- The token is a name, and not one that is reserved at the spot. -/
structure NameAt (spot : Spot) (t : Token) : Prop where
  name : t.Is .name
  free : ¬ keywords spot t.chars

/-- The tokens in braces. -/
inductive Braced (inner : List Token) : List Token → Prop where
  | mk {left right : Token} : left.Is .leftBrace → right.Is .rightBrace →
    Braced inner (left :: (inner ++ [right]))

inductive Assignment (spot : Spot) : Node → List Token → Prop where
  | mk {name becomes stop : Token} {e : Node} {ts : List Token} : NameAt spot name →
    becomes.Is .becomes → Expression e ts → stop.Is .semicolon →
    Assignment spot (.assignment name.position name.text e) (name :: becomes :: (ts ++ [stop]))

mutual

inductive Statement : Spot → Node → List Token → Prop where
  | assignment {spot : Spot} {n : Node} {ts : List Token} : Assignment spot n ts →
    Statement spot n ts
  | declaration {spot : Spot} {name colon stop : Token} {e : Node} {ts : List Token} :
    NameAt spot name → colon.Is .colon → Expression e ts → stop.Is .semicolon →
    Statement spot (.declaration name.position name.text e) (name :: colon :: (ts ++ [stop]))
  | conditional {spot : Spot} {word : Token} {c : Node} {b : List Node} {cs bs us : List Token} :
    word.Is .ifWord → Condition c cs → Body b bs → Braced bs us →
    Statement spot (.conditional word.position c b none) (word :: (cs ++ us))
  | branching {spot : Spot} {word other : Token} {c : Node} {b e : List Node}
      {cs bs us es vs : List Token} :
    word.Is .ifWord → Condition c cs → Body b bs → Braced bs us → other.Is .elseWord →
    Body e es → Braced es vs →
    Statement spot (.conditional word.position c b (some e)) (word :: (cs ++ (us ++ other :: vs)))

inductive Body : List Node → List Token → Prop where
  | nil : Body [] []
  | snoc {ns : List Node} {n : Node} {ts us : List Token} : Body ns ts →
    Statement (Spot.afterStatement ns.getLast?) n us → Body (ns ++ [n]) (ts ++ us)

end

/-! ## Items -/

structure Selector (n : Node) (t : Token) : Prop where
  word : t.kind.Word t.chars
  node : t.selector? = some n

inductive Selectors : List Node → List Token → Prop where
  | one {n : Node} {t : Token} : Selector n t → Selectors [n] [t]
  | snoc {ns : List Node} {n : Node} {ts : List Token} {comma t : Token} : Selectors ns ts →
    comma.Is .comma → Selector n t → Selectors (ns ++ [n]) (ts ++ [comma, t])

theorem Selectors.head?_append {ns : List Node} {ts : List Token} (h : Selectors ns ts)
    (us : List Token) : (ts ++ us).head? = ts.head? := by
  induction h generalizing us with
  | one _ => rfl
  | snoc _ _ _ ih => rw [List.append_assoc, ih, ih]

/-- The selectors of a rule that starts at the spot. -/
structure Front (spot : Spot) (selectors : List Node) (ts : List Token) : Prop where
  tokens : Selectors selectors ts
  free : ∀ t ∈ ts.head?, t.kind = .name → ¬ keywords spot t.chars

theorem Front.snoc {spot : Spot} {ns : List Node} {n : Node} {ts : List Token} {comma t : Token}
    (h : Front spot ns ts) (hcomma : comma.Is .comma) (hn : Selector n t) :
    Front spot (ns ++ [n]) (ts ++ [comma, t]) where
  tokens := .snoc h.tokens hcomma hn
  free := by
    rw [h.tokens.head?_append]
    exact h.free

inductive Item (spot : Spot) : Node → List Token → Prop where
  | assignment {n : Node} {ts : List Token} : Assignment spot n ts → Item spot n ts
  | rule {s : Node} {ss b : List Node} {ts bs us : List Token} : Front spot (s :: ss) ts →
    Body b bs → Braced bs us → Item spot (.rule s.position (s :: ss) b) (ts ++ us)

inductive Items : List Node → List Token → Prop where
  | nil : Items [] []
  | snoc {ns : List Node} {n : Node} {ts us : List Token} : Items ns ts →
    Item (Spot.afterItem ns.getLast?) n us → Items (ns ++ [n]) (ts ++ us)

end Derived

/-- The tokens are those of the text, and the items are read from them. -/
structure Derives (source : String) (items : List Node) (ts : List Token) : Prop where
  laid : Laid {} ts source.toList
  items : Derived.Items items ts

theorem Derives.stands {source : String} {items : List Node} {ts : List Token}
    (h : Derives source items ts) : ∀ t ∈ ts, t.StandsIn source := by
  intro t ht
  obtain ⟨seen, rest, hsource, hstart⟩ := h.laid.exists_seen ht
  rw [Cursor.after_start] at hstart
  exact ⟨seen, rest, hsource, hstart⟩

end StyleLang
