/-! Kinds of tokens and the words that spell them. -/

namespace GameScript

/-- What a token is, whatever its spelling. -/
inductive TokenKind where
  | leftParen | rightParen | leftBrace | rightBrace | leftBracket | rightBracket
  | comma | dot | minus | plus | semicolon | slash | star | percent
  | bang | bangEqual | equal | equalEqual | greater | greaterEqual | less | lessEqual
  | identifier | string | number
  | and | else | false | for | fun | if | nil | or | print | return | true | var | while
  | eof
  deriving Repr, DecidableEq, Inhabited

namespace TokenKind

/-- Every kind with the name that listings use. -/
def table : List (TokenKind × String) :=
  [(.leftParen, "LEFT_PAREN"), (.rightParen, "RIGHT_PAREN"), (.leftBrace, "LEFT_BRACE"),
   (.rightBrace, "RIGHT_BRACE"), (.leftBracket, "LEFT_BRACKET"), (.rightBracket, "RIGHT_BRACKET"),
   (.comma, "COMMA"), (.dot, "DOT"), (.minus, "MINUS"), (.plus, "PLUS"),
   (.semicolon, "SEMICOLON"), (.slash, "SLASH"), (.star, "STAR"), (.percent, "PERCENT"),
   (.bang, "BANG"), (.bangEqual, "BANG_EQUAL"), (.equal, "EQUAL"), (.equalEqual, "EQUAL_EQUAL"),
   (.greater, "GREATER"), (.greaterEqual, "GREATER_EQUAL"), (.less, "LESS"),
   (.lessEqual, "LESS_EQUAL"), (.identifier, "IDENTIFIER"), (.string, "STRING"),
   (.number, "NUMBER"), (.and, "AND"), (.else, "ELSE"), (.false, "FALSE"), (.for, "FOR"),
   (.fun, "FUN"), (.if, "IF"), (.nil, "NIL"), (.or, "OR"), (.print, "PRINT"),
   (.return, "RETURN"), (.true, "TRUE"), (.var, "VAR"), (.while, "WHILE"), (.eof, "EOF")]

/-- The name that listings use. -/
def name (kind : TokenKind) : String := (table.lookup kind).getD ""

/-- The kind of a name. -/
def ofName? (name : String) : Option TokenKind :=
  (table.find? fun entry => entry.2 = name).map (·.1)

theorem ofName?_name (kind : TokenKind) : ofName? kind.name = some kind := by
  cases kind <;> decide

/-- Words with a meaning of their own. Most kinds have an English spelling and a Hiligaynon one,
and the operators have Hiligaynon words beside their symbols. -/
def words : List (String × TokenKind) :=
  [("and", .and), ("else", .else), ("false", .false), ("for", .for), ("fun", .fun), ("if", .if),
   ("nil", .nil), ("or", .or), ("print", .print), ("return", .return), ("true", .true),
   ("var", .var), ("while", .while),
   ("DEKLARAR", .fun), ("basi", .var), ("sulat", .print), ("kung", .if), ("kung_indi", .else),
   ("samtang", .while), ("kada", .for), ("balik", .return), ("ibalik", .return), ("korik", .true),
   ("atik", .false), ("waay", .nil), ("kag", .and), ("ukon", .or),
   ("dugang", .plus), ("buhin", .minus), ("padamo", .star), ("dibaydibay", .slash),
   ("kambyo", .percent), ("mas_dako", .greater), ("mas_gamay", .less),
   ("dako_ukon_pareho", .greaterEqual), ("gamay_ukon_pareho", .lessEqual),
   ("parehos", .equalEqual), ("lain", .bangEqual), ("indi", .bang), ("ituon_sa", .equal)]

/-- The kind of a word; a word without a meaning of its own is an identifier. -/
def ofWord (word : String) : TokenKind := (words.lookup word).getD .identifier

/-- The characters that are a token by themselves. -/
def single? (c : Char) : Option TokenKind :=
  match c with
  | '(' => some .leftParen
  | ')' => some .rightParen
  | '\x7b' => some .leftBrace
  | '\x7d' => some .rightBrace
  | '[' => some .leftBracket
  | ']' => some .rightBracket
  | ',' => some .comma
  | '.' => some .dot
  | '-' => some .minus
  | '+' => some .plus
  | ';' => some .semicolon
  | '*' => some .star
  | '%' => some .percent
  | _ => none

/-- The characters that an equals sign may follow: the kind with one, then the kind without. -/
def equalsPair? (c : Char) : Option (TokenKind × TokenKind) :=
  match c with
  | '!' => some (.bangEqual, .bang)
  | '=' => some (.equalEqual, .equal)
  | '<' => some (.lessEqual, .less)
  | '>' => some (.greaterEqual, .greater)
  | _ => none

/-- The kinds that can begin a declaration or statement, where parsing resumes after an error. -/
def startsStatement : TokenKind → Bool
  | .fun | .var | .for | .if | .while | .print | .return => Bool.true
  | _ => Bool.false

end TokenKind

end GameScript
