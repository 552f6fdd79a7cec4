/-!
# Tokens

The fixed words and signs of the statements: keywords, comparison operators and punctuation marks.
-/

namespace Keyset

/-- A keyword, an operator or a punctuation mark. -/
inductive Token
  | SELECT | INSERT | INTO | VALUES | UPDATE | SET | DELETE | FROM | WHERE | INNER | JOIN | ON
  | ORDER | BY | ASC | DESC | LIMIT | OFFSET | AND | IS | NOT | NULL | TRUE
  /-- All columns. -/
  | star
  | comma
  | lparen
  | rparen
  | eq
  | ne
  | lt
  | gt
  | le
  | ge
deriving DecidableEq

namespace Token

/-- The characters of a token. -/
def text : Token → String
  | SELECT => "SELECT"
  | INSERT => "INSERT"
  | INTO => "INTO"
  | VALUES => "VALUES"
  | UPDATE => "UPDATE"
  | SET => "SET"
  | DELETE => "DELETE"
  | FROM => "FROM"
  | WHERE => "WHERE"
  | INNER => "INNER"
  | JOIN => "JOIN"
  | ON => "ON"
  | ORDER => "ORDER"
  | BY => "BY"
  | ASC => "ASC"
  | DESC => "DESC"
  | LIMIT => "LIMIT"
  | OFFSET => "OFFSET"
  | AND => "AND"
  | IS => "IS"
  | NOT => "NOT"
  | NULL => "NULL"
  | TRUE => "TRUE"
  | star => "*"
  | comma => ","
  | lparen => "("
  | rparen => ")"
  | eq => "="
  | ne => "<>"
  | lt => "<"
  | gt => ">"
  | le => "<="
  | ge => ">="

/-- The token compares two operands. -/
def isOperator : Token → Bool
  | eq | ne | lt | gt | le | ge => true
  | _ => false

/-- The token is a comma or a parenthesis. -/
def isPunctuation : Token → Bool
  | comma | lparen | rparen => true
  | _ => false

end Token

end Keyset
