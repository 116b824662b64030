import Mathlib.Tactic.Common

/-! Tokenizer and incremental decoder (`crates/runtime/src/tokenizer.rs`).

The `tokenizers` crate is a parameter: its two directions as functions. -/

set_option autoImplicit false
set_option relaxedAutoImplicit false

namespace IntelNav.Runtime

structure Tok where
  encode : String → Except String (List UInt32)
  decode : List UInt32 → Except String String
  eosIds : List UInt32

def Tok.isEos (tok : Tok) (id : UInt32) : Bool := tok.eosIds.contains id

/-- The ids pushed so far, and how many bytes of their text were emitted. -/
structure IncrementalDecoder where
  ids : List UInt32
  emitted : Nat
  deriving DecidableEq

def IncrementalDecoder.new : IncrementalDecoder := ⟨[], 0⟩

inductive DecodeError
  | decode (msg : String)
  | panic
  deriving DecidableEq

/-- The text from byte `n` on; slicing a string off a character boundary panics. -/
def textFrom (s : String) (n : Nat) : Option String :=
  String.fromUTF8? (s.toUTF8.extract n s.utf8ByteSize)

def IncrementalDecoder.push (d : IncrementalDecoder) (tok : Tok) (id : UInt32) :
    Except DecodeError (Option String × IncrementalDecoder) :=
  let ids := d.ids ++ [id]
  match tok.decode ids with
  | .error e => .error (.decode e)
  | .ok all =>
      if all.utf8ByteSize ≤ d.emitted then .ok (none, { d with ids })
      else
        match textFrom all d.emitted with
        | none => .error .panic
        | some delta => .ok (some delta, { ids, emitted := all.utf8ByteSize })

end IntelNav.Runtime
