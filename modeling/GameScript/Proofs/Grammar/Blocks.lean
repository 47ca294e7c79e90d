import GameScript.Proofs.Grammar.Recovery
import GameScript.Proofs.Grammar.Splitting

/-! # Errors inside blocks

A malformed statement inside a block is skipped up to a semicolon, as one outside is. If that
semicolon comes before the brace that closes the block, the block is closed where it should be, and
nothing after it is touched. Otherwise the brace itself can be skipped, and the block goes on. -/

namespace GameScript.Parse

open Grammar

variable {α β : Type}

/-! ## Rules that report -/

/-- The rule reads some tokens before a rest and reports something of its own, whatever was reported
before. -/
def Yields (p : Parse α) (ts : List Token) (a : α) (rest : List Token) (ds : List Diagnostic) : Prop :=
  ∀ finish reported, finish.kind = .eof →
    p ⟨ts ++ rest, finish, reported⟩ = .ok a ⟨rest, finish, reported ++ ds⟩

namespace Yields

variable {p : Parse α} {ts ts' rest : List Token} {a : α} {b : β} {ds : List Diagnostic}

theorem after {f : α → Parse β} (hp : Consumes p ts a (ts' ++ rest)) (hf : Yields (f a) ts' b rest ds) :
    Yields (p >>= f) (ts ++ ts') b rest ds := by
  intro finish reported hfinish
  rw [List.append_assoc, bind_eq_of_ok (hp finish reported hfinish), hf finish reported hfinish]

theorem before {f : α → Parse β} (hp : Yields p ts a (ts' ++ rest) ds) (hf : Consumes (f a) ts' b rest) :
    Yields (p >>= f) (ts ++ ts') b rest ds := by
  intro finish reported hfinish
  rw [List.append_assoc, bind_eq_of_ok (hp finish reported hfinish), hf finish _ hfinish]

theorem map {f : α → Parse β} (hp : Yields p ts a rest ds) (hf : Consumes (f a) [] b rest) :
    Yields (p >>= f) ts b rest ds := by
  have := before (hp : Yields p ts a ([] ++ rest) ds) hf
  rwa [List.append_nil] at this

theorem token {wanted : TokenKind → Bool} {token : Token} {f : Option Token → Parse β}
    (hw : wanted token.kind) (he : token.kind ≠ .eof) (hf : Yields (f (some token)) ts b rest ds) :
    Yields (accept wanted >>= f) (token :: ts) b rest ds := after (.accepted hw he _) hf

theorem otherwise {wanted : TokenKind → Bool} {f : Option Token → Parse β}
    (hn : Avoids (wanted · = true) (ts ++ rest)) (hf : Yields (f none) ts b rest ds) :
    Yields (accept wanted >>= f) ts b rest ds :=
  after (.refused hn : Consumes (accept wanted) [] none (ts ++ rest)) hf

theorem expect {kind : TokenKind} {token : Token} {message : String} {f : Token → Parse β}
    (hk : token.kind = kind) (he : kind ≠ .eof) (hf : Yields (f token) ts b rest ds) :
    Yields (Parse.expect kind message >>= f) (token :: ts) b rest ds :=
  after (.expect hk he message (ts ++ rest)) hf

theorem discard {kind : TokenKind} {token : Token} {message : String} {f : Parse β}
    (hk : token.kind = kind) (he : kind ≠ .eof) (hf : Yields f ts b rest ds) :
    Yields (Functor.discard (Parse.expect kind message) >>= fun _ => f) (token :: ts) b rest ds :=
  after ((Consumes.expect hk he message (ts ++ rest)).map (.pure () _)) hf

theorem recovering {p : Parse Node} {node : Node} (h : Yields p ts node rest ds) :
    Yields (recovering p) ts (some node) rest ds := by
  intro finish reported hfinish
  unfold Parse.recovering
  rw [h finish reported hfinish]

/-- The declarations of a block, and the brace that closes it. -/
theorem blockRest {depth : Nat} {nodes : List Node} {closing : Token}
    (h : Yields (declarationLoop blockEnds depth []) ts nodes.reverse (closing :: rest) ds)
    (hc : closing.kind = .rightBrace) :
    Yields (blockRest (declaration depth)) (ts ++ [closing]) (.sequence nodes) rest ds := by
  refine before h (.discard hc nofun ?_)
  rw [List.reverse_reverse]
  exact .pure _ _

end Yields

/-! ## What opens a block -/

/-- The tokens before the declarations of a block or of a function's body, and the tree that the
declarations give. -/
inductive Opens : List Token → (List Node → Node) → Prop
  | block {brace : Token} : brace.kind = .leftBrace → Opens [brace] fun nodes => .block (.sequence nodes)
  | function {keyword name opening closing brace : Token} {ts params : List Token} :
      keyword.kind = .fun → name.kind = .identifier → opening.kind = .leftParen →
      Listed IsName ts params → params.length ≤ maxArguments → closing.kind = .rightParen →
      brace.kind = .leftBrace →
      Opens (keyword :: name :: opening :: (ts ++ [closing, brace]))
        fun nodes => .function name params (.sequence nodes)

theorem Opens.yields {head : List Token} {make : List Node → Node} (h : Opens head make) {depth : Nat}
    {ts rest : List Token} {nodes : List Node} {ds : List Diagnostic}
    (hb : Yields (blockRest (declaration (depth + 4))) ts (.sequence nodes) rest ds) :
    Yields (declaration (depth + 7)) (head ++ ts) (some (make nodes)) rest ds := by
  refine Yields.recovering ?_
  cases h with
  | @block brace hbrace =>
    refine .otherwise (.cons (by simp [hbrace])) (Yields.token (by simp [leadsStatement, hbrace])
      (by simp [hbrace]) ?_)
    simp only [hbrace]
    exact hb.map (.pure _ _)
  | @function keyword name opening closing brace names params hk hn ho hp hm hc hbrace =>
    have items : Consumes (items .rightParen (some "Can't have more than 255 parameters.")
        (Parse.expect .identifier "Expect parameter name.")) names params
        (closing :: brace :: ts ++ rest) :=
      .items ((Advances.expect _ _).mono (Nat.zero_le 1)) (itemized_of_names hp _)
        ⟨closing, _, rfl, by simp [hc]⟩ (by decide) (by decide) fun _ => hm
    refine .token (by simp [hk]) (by simp [hk]) ?_
    simp only [hk, if_true]
    have regroup : names ++ [closing, brace] ++ ts = names ++ closing :: brace :: ts := by simp
    show Yields _ (name :: opening :: (names ++ [closing, brace] ++ ts)) _ rest ds
    rw [regroup]
    refine .expect hn (by decide) (.discard ho (by decide) (.after items ?_))
    exact .discard hc (by decide) (.discard hbrace (by decide) (hb.map (.pure _ _)))

theorem Opens.notEnd {head : List Token} {make : List Node → Node} (h : Opens head make)
    (ts : List Token) (finish : Token) : (Cursor.mk (head ++ ts) finish []).atEnd = false := by
  cases h with
  | block hbrace => simp [Cursor.atEnd, Cursor.peek, hbrace]
  | function hk => simp [Cursor.atEnd, Cursor.peek, hk]

/-! ## The declarations of a block -/

theorem Avoids.append {kinds : TokenKind → Prop} {ts : List Token} (h : Avoids kinds ts) (hne : ts ≠ [])
    (rest : List Token) : Avoids kinds (ts ++ rest) := by
  cases ts with
  | nil => exact absurd rfl hne
  | cons token ts => exact .cons (h token rfl)

theorem blockEnds_of_loose {c : Cursor} (hc : IsLoose c) (around : Surroundings) :
    blockEnds (c.inside around) = .ok false (c.inside around) := by
  obtain ⟨-, hend, hcloses⟩ := hc.goesOn around
  rw [blockEnds_eq, hend, hcloses]
  rfl

/-- Loose tokens between declarations are gone through as they are alone, and what they report is all
that is reported of the block. -/
theorem declarationLoop_block {depth : Nat} (hd : 7 ≤ depth) {front bad back : List Token}
    (rest : List Token) {finish closing : Token} {before nodes after : List Node} {c last c' : Cursor}
    (hf : finish.kind = .eof)
    (hfront : program depth ⟨front, finish, []⟩ = .ok before c) (hclean : c.reported = [])
    (hfrontEof : ∀ token ∈ front, token.kind ≠ .eof)
    (hbad : Loose bad) (hstart : Avoids (· = .else) bad)
    (hnodes : declarationLoop atEnd depth [] ⟨bad, finish, []⟩ = .ok nodes last)
    (hback : program depth ⟨back, finish, []⟩ = .ok after c') (hclean' : c'.reported = [])
    (hbackEof : ∀ token ∈ back, token.kind ≠ .eof) (hclosing : closing.kind = .rightBrace) :
    Yields (declarationLoop blockEnds depth []) (front ++ (bad ++ back))
      (before ++ nodes.reverse ++ after).reverse (closing :: rest) last.reported := by
  intro finish' reported hf'
  have hbrace : Avoids (· = .else) (closing :: rest) := .cons (by rw [hclosing]; nofun)
  have hafter : Avoids (· = .else) (back ++ closing :: rest) :=
    avoids_declarations (program_sound hf hbackEof hback hclean') hbrace
  -- front, bad and back one after the other, then the brace
  have first := program_replays hf hfrontEof hfront hclean .blockEnds [] reported hf'
    (hstart.append hbad.ne_nil (back ++ closing :: rest))
  obtain ⟨nodes', last', ⟨hnil, -⟩, both⟩ := declarationLoop_loose (c := ⟨bad, finish, []⟩) hd .blockEnds
    (blockEnds_of_loose · ⟨reported, back ++ closing :: rest, finish'⟩) hf' hafter (.inl ⟨hbad, hf⟩)
  have alone := (both []).1
  rw [hnodes, List.append_nil] at alone
  obtain ⟨rfl, rfl⟩ : nodes = nodes' ∧ last = last' := by simpa using alone
  have second := (both (before.reverse ++ [])).2
  have third := program_replays hf hbackEof hback hclean' .blockEnds (nodes ++ (before.reverse ++ []))
    (reported ++ last.reported) hf' hbrace
  simp only [Cursor.inside, hnil, List.append_nil, List.nil_append] at first second third
  have close : blockEnds ⟨closing :: rest, finish', reported ++ last.reported⟩ =
      .ok true ⟨closing :: rest, finish', reported ++ last.reported⟩ := by
    simp [blockEnds_eq, closes, Cursor.atEnd, Cursor.peek, hclosing]
  calc declarationLoop blockEnds depth [] ⟨front ++ (bad ++ back) ++ closing :: rest, finish', reported⟩
    _ = declarationLoop blockEnds depth before.reverse
          ⟨bad ++ (back ++ closing :: rest), finish', reported⟩ := by rw [← first]; simp
    _ = declarationLoop blockEnds depth (after.reverse ++ (nodes ++ before.reverse))
          ⟨closing :: rest, finish', reported ++ last.reported⟩ := by rw [second, third]
    _ = .ok (before ++ nodes.reverse ++ after).reverse _ := by
      rw [declarationLoop_end .blockEnds hf' close]
      simp

end GameScript.Parse

namespace GameScript

open Parse Grammar

/-- A declaration with what it reports, and what follows it as if it stood alone. -/
theorem parseTokens_first {limits : Limits} (hd : 7 ≤ limits.parsing) {ts rest : List Token}
    {node : Node} {ds : List Diagnostic} {finish : Token} (hf : finish.kind = .eof)
    (hbegun : (Cursor.mk (ts ++ rest) finish []).atEnd = false)
    (h : Yields (declaration limits.parsing) ts (some node) rest ds) :
    parseTokens limits (ts ++ rest) finish =
      ⟨node :: (parseTokens limits rest finish).statements,
        ds ++ (parseTokens limits rest finish).diagnostics⟩ := by
  obtain ⟨nodes, c, loop⟩ := declarationLoop_adds (c := ⟨rest, finish, []⟩) hd hf
  have whole : declarationLoop atEnd limits.parsing [] ⟨ts ++ rest, finish, []⟩ =
      .ok (nodes ++ [node]) (c.inside ⟨ds, [], finish⟩) := by
    rw [declarationLoop_next .atEnd hf (atEnd_eq hbegun) (h finish [] hf)]
    simp only [List.nil_append]
    rw [declarationLoop_reported _ _ hf ds, loop]
    rfl
  rw [parseTokens_of_loop whole, parseTokens_of_loop (loop [])]
  simp [Cursor.inside]

/-- The bounds that are left for the declarations of a block. -/
def Limits.inBlock (limits : Limits) : Limits := { limits with parsing := limits.parsing - 3 }

/-- A block or a function, between whose declarations there is something malformed up to a semicolon,
parses to the declarations of its parts, and what follows is parsed as if it stood alone. What is
reported is what is reported of the malformed part alone, and of what follows. -/
theorem parseTokens_block (limits : Limits) (hd : 10 ≤ limits.parsing) {head : List Token}
    {make : List Node → Node} (hhead : Opens head make) (front bad back rest : List Token)
    (finish closing finish' : Token) (hf : finish.kind = .eof)
    (hfront : (parseTokens limits.inBlock front finish).diagnostics = [])
    (hfrontEof : ∀ token ∈ front, token.kind ≠ .eof)
    (hbad : Loose bad) (hstart : Avoids (· = .else) bad)
    (hback : (parseTokens limits.inBlock back finish).diagnostics = [])
    (hbackEof : ∀ token ∈ back, token.kind ≠ .eof) (hclosing : closing.kind = .rightBrace)
    (hf' : finish'.kind = .eof) :
    parseTokens limits (head ++ (front ++ (bad ++ back) ++ [closing]) ++ rest) finish' =
      ⟨make ((parseTokens limits.inBlock front finish).statements ++
          (parseTokens limits.inBlock bad finish).statements ++
          (parseTokens limits.inBlock back finish).statements) ::
          (parseTokens limits rest finish').statements,
        (parseTokens limits.inBlock bad finish).diagnostics ++
          (parseTokens limits rest finish').diagnostics⟩ := by
  obtain ⟨c, hbefore, hclean⟩ := parseTokens_clean hfront
  obtain ⟨c', hafter, hclean'⟩ := parseTokens_clean hback
  have hinner : 7 ≤ limits.inBlock.parsing := Nat.le_sub_of_add_le hd
  obtain ⟨nodes, last, alone⟩ := declarationLoop_adds (c := ⟨bad, finish, []⟩) hinner hf
  have inside := declarationLoop_block hinner rest hf hbefore hclean hfrontEof hbad hstart
    (alone []) hafter hclean' hbackEof hclosing
  have hdepth : limits.parsing - 7 + 4 = limits.inBlock.parsing := by
    show limits.parsing - 7 + 4 = limits.parsing - 3
    omega
  have block : Yields (declaration (limits.parsing - 7 + 7)) _ _ rest last.reported :=
    hhead.yields (Yields.blockRest (hdepth ▸ inside) hclosing)
  rw [Nat.sub_add_cancel (Nat.le_trans (by decide) hd)] at block
  have begun : (Cursor.mk (head ++ (front ++ (bad ++ back) ++ [closing]) ++ rest) finish' []).atEnd =
      false := by
    rw [List.append_assoc]
    exact hhead.notEnd _ finish'
  rw [parseTokens_first (Nat.le_trans (by decide) hd) hf' begun block, parseTokens_of_loop (alone [])]

/-- The tokens of `fun f(x) { x; print f(, ; x; }`. -/
def faultyFunction : List Token :=
  [word .fun "fun", name "f", word .leftParen "(", name "x", word .rightParen ")",
    word .leftBrace "\x7b", name "x", word .semicolon ";"] ++ unfinishedCall ++
  [name "x", word .semicolon ";", word .rightBrace "\x7d"]

theorem faultyFunction_block :
    Loose unfinishedCall ∧
      parseTokens .standard (faultyFunction ++ [name "y", word .semicolon ";"]) (.finish 1) =
        ⟨[.function (name "f") [name "x"] (.sequence [.expression (.variable (name "x")),
            .expression (.variable (name "x"))]), .expression (.variable (name "y"))],
          [Diagnostic.atToken (word .comma ",") "Expect expression."]⟩ := by
  have loose : Loose unfinishedCall :=
    ⟨⟨unfinishedCall.dropLast, word .semicolon ";", rfl, rfl⟩, by decide⟩
  have opens : Opens [word .fun "fun", name "f", word .leftParen "(", name "x", word .rightParen ")",
      word .leftBrace "\x7b"] fun nodes => .function (name "f") [name "x"] (.sequence nodes) :=
    .function rfl rfl rfl (.some (.one ⟨rfl, rfl⟩)) (by decide) rfl rfl
  have whole := parseTokens_block .standard (by decide) opens [name "x", word .semicolon ";"]
    unfinishedCall [name "x", word .semicolon ";"] [name "y", word .semicolon ";"] (.finish 1)
    (word .rightBrace "\x7d") (.finish 1) rfl rfl (by decide) loose (.cons (by decide)) rfl (by decide)
    rfl rfl
  exact ⟨loose, whole⟩

/-- A block whose statement has no semicolon before the brace, with another statement after it. The
error is at the brace, which is skipped, and the block takes the other statement with it. -/
theorem unendedStatement_swallows :
    parseTokens .standard [word .print "print", name "b", word .semicolon ";"] (.finish 1) =
        ⟨[.print (.variable (name "b"))], []⟩ ∧
      parseTokens .standard ([word .leftBrace "\x7b", word .print "print", name "a",
          word .rightBrace "\x7d"] ++ [word .print "print", name "b", word .semicolon ";"]) (.finish 1) =
        ⟨[], [Diagnostic.atToken (word .rightBrace "\x7d") "Expect ';' after value.",
          Diagnostic.atToken (.finish 1) "Expect '\x7d' after block."]⟩ := ⟨rfl, rfl⟩

end GameScript
