import Stencil.Lexer.Step

/-! # The token stream — advancing, looking ahead and putting tokens in

    A reader takes tokens one at a time.  It may look any distance ahead
    without taking, and it may defer tokens: these come out before everything
    that has not been taken yet. -/

namespace Stencil.Lexer

/-- Takes the next token. -/
def advance (lexer : Lexer) : Outcome Token :=
  match lexer.deferred with
  | token :: deferred => { lexer with deferred }.emit token
  | [] =>
      match lexer.stash with
      | token :: stash => { lexer with stash }.emit token
      | [] => lexer.next

/-- Reads tokens of the text into the stash. -/
def stock : Nat → Lexer → Outcome Unit
  | 0, lexer => (.ok (), lexer)
  | count + 1, lexer =>
      match lexer.next with
      | (.ok token, after) => stock count { after with stash := after.stash ++ [token] }
      | (.error fault, after) => (.error fault, after)

/-- The token with the given number of tokens before it, which stays where it is. -/
def peekAt (lexer : Lexer) (offset : Nat) : Outcome Token :=
  match lexer.stock (offset + 1 - (lexer.deferred.length + lexer.stash.length)) with
  | (.error fault, after) => (.error fault, after)
  | (.ok (), after) =>
      (.ok ((after.deferred ++ after.stash).getD offset (after.token .eos)), after)

/-- The token at a distance, counted from one; a smaller distance is refused. -/
def lookahead (lexer : Lexer) (distance : Int) : Outcome Token :=
  if distance < 1 then lexer.fail (.lookaheadDistance distance)
  else lexer.peekAt (distance.toNat - 1)

/-- Puts a token in behind the deferred ones. -/
def defer (lexer : Lexer) (token : Token) : Lexer :=
  { lexer with deferred := lexer.deferred ++ [token] }

/-- Takes tokens up to the end of the stream; the fuel bounds their number. -/
def drainWith : Nat → Lexer → List Token × Option LexicalFault × Lexer
  | 0, lexer => ([], none, lexer)
  | fuel + 1, lexer =>
      match lexer.advance with
      | (.error fault, after) => ([], some fault, after)
      | (.ok token, after) =>
          if token.kind = .eos then ([token], none, after)
          else
            let (tokens, fault, last) := drainWith fuel after
            (token :: tokens, fault, last)

/-- Every token up to the end of the stream, or up to a fault. -/
def drain (lexer : Lexer) : List Token × Option LexicalFault × Lexer :=
  drainWith (lexer.potential + 1) lexer

end Stencil.Lexer
