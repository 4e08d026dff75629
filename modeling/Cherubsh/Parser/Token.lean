import Cherubsh.Library.Utf8

/-! # Tokens -/
namespace Cherubsh.Grammar

abbrev Text : Type := List Char

inductive TokenKind where
  | end | newline | word | assignmentWord | redirWord | number | arithCmd | arithForExprs | condCmd
  | if | then | else | elif | fi | case | esac | for | select | while | until | do | done | function | coproc | in
  | bang | time | timeOpt | timeIgn | andAnd | orOr | pipe | barAnd | semicolon | ampersand
  | less | greater | lessLess | lessLessMinus | lessLessLess | greaterGreater | greaterBar | lessAnd | greaterAnd
  | andGreater | andGreaterGreater | lessGreater
  | lParen | rParen | lBrace | rBrace | dblLParen | dblRParen | dblLBracket | dblRBracket
  | dblSemicolon | semiAmp | dblSemiAmp
  deriving DecidableEq

inductive TokenValue where
  | none
  | text (t : Text)
  | number (value : ℤ) (raw : Text)
  deriving DecidableEq

structure Span where
  source : ℕ
  start : ℕ
  stop : ℕ
  deriving DecidableEq

structure Token where
  kind : TokenKind
  value : TokenValue
  span : Span
  wordFlags : ℕ
  deriving DecidableEq

def tokenValueToString : TokenValue → Text
  | .none => []
  | .text t => t
  | .number _ raw => raw

def tokenToText (token : Token) : Text :=
  match token.kind with
  | .word | .assignmentWord | .number => tokenValueToString token.value
  | _ => []

def kindText : TokenKind → String
  | .end => "EOF"
  | .newline => "newline"
  | .semicolon => ";"
  | .ampersand => "&"
  | .bang => "!"
  | .pipe => "|"
  | .barAnd => "|&"
  | .andAnd => "&&"
  | .orOr => "||"
  | .less => "<"
  | .greater => ">"
  | .lessLess => "<<"
  | .lessLessMinus => "<<-"
  | .lessLessLess => "<<<"
  | .greaterGreater => ">>"
  | .greaterBar => ">|"
  | .lessAnd => "<&"
  | .greaterAnd => ">&"
  | .andGreater => "&>"
  | .andGreaterGreater => "&>>"
  | .lessGreater => "<>"
  | .lParen => "("
  | .rParen => ")"
  | .dblLParen => "(("
  | .dblRParen => "))"
  | .dblLBracket => "[["
  | .dblRBracket => "]]"
  | .lBrace => "\x7b"
  | .rBrace => "\x7d"
  | .dblSemicolon => ";;"
  | .semiAmp => ";&"
  | .dblSemiAmp => ";;&"
  | _ => "?"

def tokenToTextLossy (token : Token) : Text :=
  match tokenToText token with
  | [] => (kindText token.kind).toList
  | text => text

def Token.isText (token : Token) (text : String) : Bool :=
  match token.value with
  | .text t => t = text.toList
  | _ => false

def isRedirectionKind : TokenKind → Bool
  | .less | .greater | .lessLess | .lessLessMinus | .lessLessLess | .greaterGreater | .greaterBar | .lessAnd
  | .greaterAnd | .andGreater | .andGreaterGreater | .lessGreater => true
  | _ => false

def isRedirectionTarget (token : Token) : Bool :=
  match token.kind with
  | .word | .assignmentWord | .number => true
  | _ => false

def isCasePatternSeparator : TokenKind → Bool
  | .rParen | .pipe | .newline | .end | .dblSemicolon | .semiAmp | .dblSemiAmp => true
  | _ => false

def isShellIdentifier : Text → Bool
  | [] => false
  | first :: rest => (first = '_' || first.isAlpha) && rest.all fun ch => ch = '_' || ch.isAlphanum

def isShellArrayReference (text : Text) : Bool :=
  let name := text.takeWhile (· ≠ '[')
  let rest := text.dropWhile (· ≠ '[')
  !rest.isEmpty && text.getLast? = some ']' && isShellIdentifier name && decide (2 < rest.length)

def redirWordName (text : Text) : Option Text :=
  match text with
  | '{' :: rest =>
    if rest.getLast? = some '}' then
      let inner := rest.dropLast
      if isShellIdentifier inner || isShellArrayReference inner then some inner else none
    else none
  | _ => none

def isRedirWordToken (token : Token) : Bool :=
  match token.value with
  | .text t => (redirWordName t).isSome
  | _ => false
end Cherubsh.Grammar

namespace Cherubsh.Lexer
open Grammar

def isReservedWordText (text : Text) : Bool :=
  ["if","then","else","elif","fi","case","esac","for","select","while","until","do","done","function","coproc","in"].any
    fun w => text = w.toList
end Cherubsh.Lexer
