import ProgramAnalysis.Id
/-!
Cancellation tokens.

A token has a flag and possibly a parent. Cancelling raises the flag of the token; a token counts as
cancelled when its flag or the flag of one of its ancestors is raised. A copy shares the flag and
the parent of the token it was made from. Tokens are numbered in the order of their creation, so a
parent always has a smaller number than its children.
-/

namespace ProgramAnalysis

/-- A cancellation token. -/
structure TokenId where
  index : Nat
deriving DecidableEq, Inhabited

/-- What is known of a token: the token whose flag it uses, and its parent. -/
structure TokenNode where
  flag : TokenId
  parent : Option TokenId
deriving DecidableEq, Inhabited

/-- All tokens, and the tokens whose flag is raised. -/
structure Tokens where
  nodes : List TokenNode
  raised : List TokenId
deriving DecidableEq, Inhabited

namespace Tokens

/-- No token at all. -/
def empty : Tokens := ⟨[], []⟩

def node? (ts : Tokens) (t : TokenId) : Option TokenNode := ts.nodes[t.index]?

/-- The number that the next token gets. -/
def next (ts : Tokens) : TokenId := ⟨ts.nodes.length⟩

/-- A token without a parent. -/
def create (ts : Tokens) : TokenId × Tokens :=
  (ts.next, { ts with nodes := ts.nodes ++ [⟨ts.next, none⟩] })

/-- A token below another one. -/
def child (ts : Tokens) (parent : TokenId) : TokenId × Tokens :=
  (ts.next, { ts with nodes := ts.nodes ++ [⟨ts.next, some parent⟩] })

/-- A copy of a token; a copy of an unknown token is a token of its own. -/
def copy (ts : Tokens) (t : TokenId) : TokenId × Tokens :=
  (ts.next, { ts with nodes := ts.nodes ++ [(ts.node? t).getD ⟨ts.next, none⟩] })

/-- Raises the flag of a token. -/
def cancel (ts : Tokens) (t : TokenId) : Tokens :=
  match ts.node? t with
  | some n => { ts with raised := n.flag :: ts.raised }
  | none => ts

/-- Whether the flag of `t` or of one of its first `depth` ancestors is raised. -/
def cancelledWithin (ts : Tokens) : Nat → TokenId → Bool
  | depth, t =>
    match ts.node? t with
    | none => false
    | some n =>
      ts.raised.contains n.flag ||
        match depth, n.parent with
        | depth' + 1, some parent => cancelledWithin ts depth' parent
        | _, _ => false

/-- Whether a token is cancelled. There are no more ancestors than tokens. -/
def isCancelled (ts : Tokens) (t : TokenId) : Bool := ts.cancelledWithin ts.nodes.length t

end Tokens

end ProgramAnalysis
