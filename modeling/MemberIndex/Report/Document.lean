/-! # Documents

Structured text with its written layout: members and elements on lines of their
own, each level two blanks further in, and escapes only where a character cannot
stand for itself.
-/

namespace MemberIndex.Report

inductive Document
  | number (n : Nat)
  | text (s : String)
  | list (items : List Document)
  | table (rows : List (String × Document))

namespace Document

def escape (c : Char) : List Char :=
  if c = '"' then ['\\', '"']
  else if c = '\\' then ['\\', '\\']
  else if c.toNat = 8 then ['\\', 'b']
  else if c = '\t' then ['\\', 't']
  else if c = '\n' then ['\\', 'n']
  else if c.toNat = 12 then ['\\', 'f']
  else if c = '\r' then ['\\', 'r']
  else if c.toNat < 32 then
    ['\\', 'u', '0', '0', Nat.digitChar (c.toNat / 16), Nat.digitChar (c.toNat % 16)]
  else [c]

def quote (s : String) : List Char :=
  '"' :: s.toList.flatMap escape ++ ['"']

def newline (depth : Nat) : List Char := '\n' :: List.replicate (2 * depth) ' '

mutual

def write (depth : Nat) : Document → List Char
  | number n => Nat.toDigits 10 n
  | text s => quote s
  | list [] => ['[', ']']
  | list (d :: ds) =>
    '[' :: newline (depth + 1) ++ write (depth + 1) d ++ writeItems depth ds
  | table [] => ['\x7b', '\x7d']
  | table (r :: rs) =>
    '\x7b' :: newline (depth + 1) ++ writeRow depth r ++ writeRows depth rs

def writeItems (depth : Nat) : List Document → List Char
  | [] => newline depth ++ [']']
  | d :: ds => ',' :: newline (depth + 1) ++ write (depth + 1) d ++ writeItems depth ds

def writeRow (depth : Nat) : String × Document → List Char
  | (key, d) => quote key ++ [':', ' '] ++ write (depth + 1) d

def writeRows (depth : Nat) : List (String × Document) → List Char
  | [] => newline depth ++ ['\x7d']
  | r :: rs => ',' :: newline (depth + 1) ++ writeRow depth r ++ writeRows depth rs

end

def render (d : Document) : String := String.ofList (write 0 d)

end Document

end MemberIndex.Report
