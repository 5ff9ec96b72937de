import AttributeCodec.Attribute.Reader
import AttributeCodec.Attribute.Tree
import AttributeCodec.KeyNames
import AttributeCodec.Tree.Reader

namespace AttributeCodec

open Attribute

structure Codec where
  hook : Hook
  keys? : Option KeyNames

namespace Codec

variable {α δ : Type} [Form α] [Storable δ]

def encode (codec : Codec) (stored : δ) : Except Fault α := do
  (← Storable.toTree codec.hook stored).toAttribute

def encodeItem (codec : Codec) (stored : δ) : Except Fault (Entries α) := do
  (← Storable.toTree codec.hook stored).toItem

def decode (codec : Codec) (attr : α) : Decoding δ Unit :=
  Storable.decode codec.hook (Attribute.reader attr)

def decodeItem (codec : Codec) (item : Entries α) : Decoding δ Unit :=
  match itemTree item with
  | .ok tree => Storable.decode codec.hook tree.reader
  | .error fault => throw fault

def encodeDatum (codec : Codec) (datum : Datum) : Except Fault α := do
  (← datum.toTree codec.hook).toAttribute

def decodeDatum (codec : Codec) (type : DatumType) (attr : α) : Except Fault Datum :=
  (Attribute.reader attr).decode codec.hook type

def key (codec : Codec) (stored : δ) : Except Fault (Entries α) :=
  match codec.keys? with
  | some keys => keys.attributes codec.hook stored
  | none => throw .noKeys

def debugText (codec : Codec) : String :=
  let keys := match codec.keys? with
    | some keys => s!"Some({keys.debugText})"
    | none => "None"
  s!"ItemCodec \x7b keys: {keys}, .. \x7d"

structure Settings where
  partition? : Option String := none
  sort? : Option String := none
  hook : Hook := .timestamps

namespace Settings

inductive Change where
  | partition (name : String)
  | sort (name : String)
  | special (hook : Hook)
  | withoutSpecials

def change (settings : Settings) : Change → Settings
  | .partition name => { settings with partition? := some name }
  | .sort name => { settings with sort? := some name }
  | .special hook => { settings with hook := hook }
  | .withoutSpecials => { settings with hook := .none }

def keys? (settings : Settings) : Option KeyNames :=
  settings.partition?.map fun partition =>
    KeyNames.withSort ⟨partition, none⟩ (settings.sort?.getD "")

def codec (settings : Settings) : Codec := ⟨settings.hook, settings.keys?⟩

end Settings

end Codec

end AttributeCodec
