namespace AttributeCodec.Text

def utf8 (text : String) : List UInt8 := text.toList.flatMap String.utf8EncodeChar

end AttributeCodec.Text
