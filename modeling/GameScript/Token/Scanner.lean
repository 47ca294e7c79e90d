import GameScript.Diagnostic

/-! Cutting a source text into pieces, and the tokens and diagnostics that the pieces give.

A source is a sequence of pieces without gaps: tokens, blanks, comments, and stretches that are
none of these. Only the pieces decide what is reported and on which line. -/

namespace GameScript

/-- Why a stretch of source is no token. -/
inductive ScanProblem where
  | unexpected (c : Char)
  | unterminatedString
  | unterminatedComment
  deriving Repr, DecidableEq

def ScanProblem.message : ScanProblem → String
  | .unexpected c => "Unexpected character: " ++ Text.quoted (String.ofList [c])
  | .unterminatedString => "Unterminated string."
  | .unterminatedComment => "Unterminated comment."

/-- One piece of source, with its text. -/
inductive Piece where
  | token (kind : TokenKind) (text : List Char) (literal : Json)
  | blank (text : List Char)
  | comment (text : List Char)
  | problem (reason : ScanProblem) (text : List Char)

namespace Piece

/-- The source text of a piece. -/
def text : Piece → List Char
  | .token _ text _ | .blank text | .comment text | .problem _ text => text

/-! ## Characters -/

def isBlankChar (c : Char) : Bool := c = ' ' || c = '\r' || c = '\t' || c = '\n'

def isDigitChar (c : Char) : Bool := '0' ≤ c && c ≤ '9'

def isLetterChar (c : Char) : Bool := ('a' ≤ c && c ≤ 'z') || ('A' ≤ c && c ≤ 'Z') || c = '_'

def isWordChar (c : Char) : Bool := isLetterChar c || isDigitChar c

/-! ## Pieces by their first character -/

/-- The text before the end mark of a block comment and the text after it. -/
def untilCommentEnd : List Char → Option (List Char × List Char)
  | [] => none
  | '*' :: '/' :: rest => some ([], rest)
  | c :: rest => (untilCommentEnd rest).map fun (body, after) => (c :: body, after)

/-- A comment up to the end of its line, after the characters that open it. -/
def lineComment (opening rest : List Char) : Piece × List Char :=
  (.comment (opening ++ rest.takeWhile (· ≠ '\n')), rest.dropWhile (· ≠ '\n'))

/-- A block comment; without an end mark it takes the rest of the source. -/
def blockComment (rest : List Char) : Piece × List Char :=
  match untilCommentEnd rest with
  | some (body, after) => (.comment ('/' :: '*' :: body ++ ['*', '/']), after)
  | none => (.problem .unterminatedComment ('/' :: '*' :: rest), [])

/-- A string, which may span lines; without a closing quote it takes the rest of the source. -/
def stringPiece (rest : List Char) : Piece × List Char :=
  let body := rest.takeWhile (· ≠ '"')
  match rest.dropWhile (· ≠ '"') with
  | quote :: after => (.token .string ('"' :: body ++ [quote]) (.string (String.ofList body)), after)
  | [] => (.problem .unterminatedString ('"' :: rest), [])

/-- A number: digits, and a fraction if a digit follows the point. -/
def numberPiece (first : Char) (rest : List Char) : Piece × List Char :=
  let whole := first :: rest.takeWhile isDigitChar
  match rest.dropWhile isDigitChar with
  | '.' :: d :: after =>
    if isDigitChar d then
      let fraction := d :: after.takeWhile isDigitChar
      (.token .number (whole ++ '.' :: fraction) (.number (Decimal.ofFraction false whole fraction)),
        after.dropWhile isDigitChar)
    else (.token .number whole (.number (Decimal.ofFraction false whole [])), '.' :: d :: after)
  | after => (.token .number whole (.number (Decimal.ofFraction false whole [])), after)

/-- A word: letters, digits and underscores. -/
def wordPiece (first : Char) (rest : List Char) : Piece × List Char :=
  let word := first :: rest.takeWhile isWordChar
  (.token (TokenKind.ofWord (String.ofList word)) word .null, rest.dropWhile isWordChar)

/-- A slash, or the comment that it opens. -/
def slashPiece (rest : List Char) : Piece × List Char :=
  match rest with
  | '/' :: rest => lineComment ['/', '/'] rest
  | '*' :: rest => blockComment rest
  | _ => (.token .slash ['/'] .null, rest)

/-- A symbol that an equals sign may follow. -/
def equalsPiece (c : Char) (kinds : TokenKind × TokenKind) (rest : List Char) : Piece × List Char :=
  match rest with
  | '=' :: rest => (.token kinds.1 [c, '='] .null, rest)
  | _ => (.token kinds.2 [c] .null, rest)

/-- The piece that starts with a character, and the source after it. -/
def first (c : Char) (rest : List Char) : Piece × List Char :=
  match TokenKind.single? c, TokenKind.equalsPair? c with
  | some kind, _ => (.token kind [c] .null, rest)
  | none, some kinds => equalsPiece c kinds rest
  | none, none =>
    if c = '/' then slashPiece rest
    else if c = '#' then lineComment ['#'] rest
    else if isBlankChar c then (.blank [c], rest)
    else if c = '"' then stringPiece rest
    else if isDigitChar c then numberPiece c rest
    else if isLetterChar c then wordPiece c rest
    else (.problem (.unexpected c) [c], rest)

/-- The pieces of a source, at most `fuel` of them. -/
def split : Nat → List Char → List Piece
  | 0, _ => []
  | _, [] => []
  | fuel + 1, c :: rest => (first c rest).1 :: split fuel (first c rest).2

/-- The pieces of a source. No piece is empty, so there are at most as many as characters. -/
def ofSource (source : List Char) : List Piece := split source.length source

/-- How many lines a piece ends. -/
def lineFeeds (piece : Piece) : Nat := piece.text.count '\n'

/-- The token of a piece that starts on a line. -/
def token? (line : Int) : Piece → Option Token
  | .token kind text literal => some ⟨kind, .string (String.ofList text), literal, .int line⟩
  | _ => none

/-- The diagnostic of a piece that starts on a line. -/
def diagnostic? (line : Int) : Piece → Option Diagnostic
  | .problem reason _ => some ⟨.int line, .line, reason.message⟩
  | _ => none

end Piece

/-- What scanning gives: tokens and diagnostics in source order, and the line where it ends. -/
structure Scan where
  tokens : List Token
  diagnostics : List Diagnostic
  lastLine : Int

namespace Scan

/-- The tokens and diagnostics of pieces, the first of which starts on a line. -/
def ofPieces (line : Int) : List Piece → Scan
  | [] => ⟨[], [], line⟩
  | piece :: rest =>
    let scan := ofPieces (line + piece.lineFeeds) rest
    { scan with
      tokens := (piece.token? line).toList ++ scan.tokens
      diagnostics := (piece.diagnostic? line).toList ++ scan.diagnostics }

/-- The scan of a source. Lines count from one. -/
def ofSource (source : String) : Scan := ofPieces 1 (Piece.ofSource source.toList)

/-- The token that ends the program. -/
def finish (scan : Scan) : Token := Token.finish scan.lastLine

/-- All tokens, the one that ends the program included. -/
def allTokens (scan : Scan) : List Token := scan.tokens ++ [scan.finish]

end Scan

end GameScript
