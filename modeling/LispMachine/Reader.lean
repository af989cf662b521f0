import LispMachine.Bignum

/-!
The reader of `lisp.c`: from the characters of a program to its tree of tokens.

A string object is the list of its words, one character a word, and a set of strings the list of
its members. The tokens of an operator are shared in the source, which nothing here depends on.
-/

namespace LispMachine.Reader

open LispMachine.Bignum

/-- The objects that are read: strings, numbers and arrays. -/
inductive Tree
  | str (s : List ℕ)
  | num (n : List ℕ)
  | arr (ts : List Tree)

/-- The delimiters of blocks and of quoted strings: `[`, `]` and `'`. -/
def blkLDelim : List ℕ := [91]
def blkRDelim : List ℕ := [93]
def strDelim : List ℕ := [39]

/-- The set `ops`: the operators `~`, `:`, `>`, `|` and `<`, and the delimiters. -/
def ops : List (List ℕ) := [[126], [58], [62], [124], [60], blkLDelim, blkRDelim, strDelim]

/-- The set `whitespace`: space, newline, tab and null. -/
def whitespace : List (List ℕ) := [[32], [10], [9], [0]]

/-- The loop over the characters of a quoted string, of which `n` may be left. -/
def quoteLoop (code : List ℕ) : ℕ → ℕ → List ℕ → List ℕ × ℕ
  | 0, i, tok => (tok, i)
  | n + 1, i, tok =>
    let tmp := [code.getD i 0]
    if tmp = strDelim then (tok, i) else quoteLoop code n (i + 1) (tok ++ tmp)

/-- The loop over the characters of a name or a numeral, of which `n` may be left. -/
def nameLoop (code : List ℕ) : ℕ → ℕ → List ℕ → List ℕ × ℕ
  | 0, i, tok => (tok, i)
  | n + 1, i, tok =>
    let tmp := [code.getD i 0]
    if tmp ∈ whitespace ∨ tmp ∈ ops then (tok, i - 1)
    else nameLoop code n (i + 1) (tok ++ tmp)

/-- The loop of `_tokenize`: the objects read, and the index behind them. -/
def tokenizeLoop (code : List ℕ) : ℕ → ℕ → List Tree → Option (List Tree × ℕ)
  | 0, _, _ => none
  | n + 1, i, ret =>
    if i < code.length then
      let tok := [code.getD i 0]
      if tok ∈ whitespace then tokenizeLoop code n (i + 1) ret
      else if tok ∈ ops then
        if tok = strDelim then
          let (tok, i) := quoteLoop code (code.length - (i + 1)) (i + 1) []
          tokenizeLoop code n (i + 1) (ret ++ [.str tok])
        else if tok = blkLDelim then
          (tokenizeLoop code n (i + 1) []).bind fun (t, i) =>
            tokenizeLoop code n i (ret ++ [.arr t])
        else if tok = blkRDelim then some (ret, i + 1)
        else tokenizeLoop code n (i + 1) (ret ++ [.str tok])
      else
        let (tok, i) := nameLoop code (code.length - (i + 1)) (i + 1) tok
        let tok : Tree := match strToNum tok with
          | some b => .num b
          | none => .str tok
        tokenizeLoop code n (i + 1) (ret ++ [tok])
    else some (ret, i)

/-- `tokenize`; a round of the loop passes a character at least. -/
def tokenize (code : List ℕ) : Option (List Tree) :=
  (tokenizeLoop code (code.length + 1) 0 []).map Prod.fst

end LispMachine.Reader
