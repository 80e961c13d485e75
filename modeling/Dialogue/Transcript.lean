/-!
# Transcripts

Everything said in a conversation, in order. Messages are numbered from one.
-/

namespace Dialogue

inductive Speaker
  | bot
  | user
  deriving Repr, DecidableEq

structure Message where
  number : Nat
  speaker : Speaker
  text : String
  deriving Repr, DecidableEq

abbrev Transcript := List Message

namespace Transcript

def next (t : Transcript) (speaker : Speaker) (text : String) : Message :=
  ⟨List.length t + 1, speaker, text⟩

def add (t : Transcript) (speaker : Speaker) (text : String) : Transcript :=
  t ++ [t.next speaker text]

end Transcript

end Dialogue
