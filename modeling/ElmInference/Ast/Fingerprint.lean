import ElmInference.Ast.Basic

/-!
# Type expressions by structure

Two type expressions are the same when they read the same, wherever they stand. `TypeExpr.same`
compares them, and `TypeExpr.fingerprint` is a 64-bit FNV-1a digest that agrees on equal
expressions; a memo table keys signatures by it.
-/

namespace ElmInference

namespace TypeExpr

mutual

/-- Equality of type expressions, positions aside. -/
def same : TypeExpr → TypeExpr → Bool
  | .mk _ (.var n), .mk _ (.var n') => n == n'
  | .mk _ (.ref r args), .mk _ (.ref r' args') => r == r' && sameList args args'
  | .mk _ .unit, .mk _ .unit => true
  | .mk _ (.tuple items), .mk _ (.tuple items') => sameList items items'
  | .mk _ (.record base fields), .mk _ (.record base' fields') =>
    base == base' && sameFields fields fields'
  | .mk _ (.function segments), .mk _ (.function segments') => sameList segments segments'
  | _, _ => false

def sameList : List TypeExpr → List TypeExpr → Bool
  | [], [] => true
  | t :: ts, u :: us => same t u && sameList ts us
  | _, _ => false

def sameFields : List (FieldDecl TypeExpr) → List (FieldDecl TypeExpr) → Bool
  | [], [] => true
  | ⟨_, n, t⟩ :: ts, ⟨_, m, u⟩ :: us => n == m && same t u && sameFields ts us
  | _, _ => false

end

/-- A digest in the making. -/
abbrev Digest := UInt64

namespace Digest

/-- The digest of nothing. -/
def start : Digest := 0xcbf29ce484222325

def byte (d : Digest) (b : UInt8) : Digest :=
  (d ^^^ b.toUInt64) * 0x100000001b3

/-- Feeds a number as eight bytes, the lowest first. -/
def word (d : Digest) (n : Nat) : Digest :=
  (List.range 8).foldl (fun d i => d.byte (UInt8.ofNat (n >>> (8 * i)))) d

/-- Feeds text as UTF-8, closed by a byte that no UTF-8 text holds. -/
def text (d : Digest) (s : String) : Digest :=
  (s.toUTF8.toList.foldl byte d).byte 0xff

def text? (d : Digest) : Option String → Digest
  | none => d.word 0
  | some s => (d.word 1).text s

end Digest

mutual

/-- Feeds a type expression: the number of its shape, then its parts, lists after their length. -/
def feed (d : Digest) : TypeExpr → Digest
  | .mk _ (.var name) => (d.word 0).text name
  | .mk _ (.ref name args) =>
    feedList ((((d.word 1).text? name.qualifier).text name.name).word args.length) args
  | .mk _ .unit => d.word 2
  | .mk _ (.tuple items) => feedList ((d.word 3).word items.length) items
  | .mk _ (.record base fields) =>
    feedFields (((d.word 4).text? base).word fields.length) fields
  | .mk _ (.function segments) => feedList ((d.word 5).word segments.length) segments

def feedList (d : Digest) : List TypeExpr → Digest
  | [] => d
  | t :: ts => feedList (feed d t) ts

def feedFields (d : Digest) : List (FieldDecl TypeExpr) → Digest
  | [] => d
  | ⟨_, name, t⟩ :: rest => feedFields (feed (d.text name) t) rest

end

def fingerprint (t : TypeExpr) : UInt64 :=
  feed Digest.start t

end TypeExpr

end ElmInference
