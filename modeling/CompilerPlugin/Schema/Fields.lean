import CompilerPlugin.Schema.Basic

namespace CompilerPlugin.Schema.MessageType

def title : MessageType → String
  | .request => "CodeGeneratorRequest"
  | .version => "Version"
  | .encodedDescriptors => "EncodedDescriptors"
  | .response => "CodeGeneratorResponse"
  | .generatedFile => "File"
  | .file => "FileDescriptorProto"
  | .message => "DescriptorProto"
  | .extensionRange => "ExtensionRange"
  | .reservedRange => "ReservedRange"
  | .extensionRangeOptions => "ExtensionRangeOptions"
  | .field => "FieldDescriptorProto"
  | .oneof => "OneofDescriptorProto"
  | .enum => "EnumDescriptorProto"
  | .enumReservedRange => "EnumReservedRange"
  | .enumValue => "EnumValueDescriptorProto"
  | .service => "ServiceDescriptorProto"
  | .method => "MethodDescriptorProto"
  | .fileOptions => "FileOptions"
  | .messageOptions => "MessageOptions"
  | .fieldOptions => "FieldOptions"
  | .oneofOptions => "OneofOptions"
  | .enumOptions => "EnumOptions"
  | .enumValueOptions => "EnumValueOptions"
  | .serviceOptions => "ServiceOptions"
  | .methodOptions => "MethodOptions"
  | .uninterpretedOption => "UninterpretedOption"
  | .namePart => "NamePart"
  | .sourceCodeInfo => "SourceCodeInfo"
  | .location => "Location"
  | .generatedCodeInfo => "GeneratedCodeInfo"
  | .codeSpan => "Annotation"

def fields : MessageType → List Field
  | .request =>
    [.many 1 "file_to_generate" .text, .one 2 "parameter" .text,
     .sub 3 "compiler_version" .version, .subs 15 "proto_file" .file,
     .subs 17 "source_file_descriptors" .file]
  | .version =>
    [.one 1 "major" .int32, .one 2 "minor" .int32, .one 3 "patch" .int32,
     .one 4 "suffix" .text]
  | .encodedDescriptors =>
    [.many 15 "proto_file" .bytes, .many 17 "source_file_descriptors" .bytes]
  | .response =>
    [.one 1 "error" .text, .one 2 "supported_features" .uint64,
     .one 3 "minimum_edition" .int32, .one 4 "maximum_edition" .int32,
     .subs 15 "file" .generatedFile]
  | .generatedFile =>
    [.one 1 "name" .text, .one 2 "insertion_point" .text, .one 15 "content" .text,
     .sub 16 "generated_code_info" .generatedCodeInfo]
  | .file =>
    [.one 1 "name" .text, .one 2 "package" .text, .many 3 "dependency" .text,
     .subs 4 "message_type" .message, .subs 5 "enum_type" .enum, .subs 6 "service" .service,
     .subs 7 "extension" .field, .sub 8 "options" .fileOptions,
     .sub 9 "source_code_info" .sourceCodeInfo, .many 10 "public_dependency" .int32,
     .many 11 "weak_dependency" .int32, .one 12 "syntax" .text]
  | .message =>
    [.one 1 "name" .text, .subs 2 "field" .field, .subs 3 "nested_type" .message,
     .subs 4 "enum_type" .enum, .subs 5 "extension_range" .extensionRange,
     .subs 6 "extension" .field, .sub 7 "options" .messageOptions,
     .subs 8 "oneof_decl" .oneof, .subs 9 "reserved_range" .reservedRange,
     .many 10 "reserved_name" .text]
  | .extensionRange =>
    [.one 1 "start" .int32, .one 2 "end" .int32, .sub 3 "options" .extensionRangeOptions]
  | .reservedRange =>
    [.one 1 "start" .int32, .one 2 "end" .int32]
  | .extensionRangeOptions =>
    [.subs 999 "uninterpreted_option" .uninterpretedOption]
  | .field =>
    [.one 1 "name" .text, .one 2 "extendee" .text, .one 3 "number" .int32,
     .one 4 "label" .int32, .one 5 "r#type" .int32, .one 6 "type_name" .text,
     .one 7 "default_value" .text, .sub 8 "options" .fieldOptions,
     .one 9 "oneof_index" .int32, .one 10 "json_name" .text, .one 17 "proto3_optional" .bool]
  | .oneof =>
    [.one 1 "name" .text, .sub 2 "options" .oneofOptions]
  | .enum =>
    [.one 1 "name" .text, .subs 2 "value" .enumValue, .sub 3 "options" .enumOptions,
     .subs 4 "reserved_range" .enumReservedRange, .many 5 "reserved_name" .text]
  | .enumReservedRange =>
    [.one 1 "start" .int32, .one 2 "end" .int32]
  | .enumValue =>
    [.one 1 "name" .text, .one 2 "number" .int32, .sub 3 "options" .enumValueOptions]
  | .service =>
    [.one 1 "name" .text, .subs 2 "method" .method, .sub 3 "options" .serviceOptions]
  | .method =>
    [.one 1 "name" .text, .one 2 "input_type" .text, .one 3 "output_type" .text,
     .sub 4 "options" .methodOptions, .one 5 "client_streaming" .bool,
     .one 6 "server_streaming" .bool]
  | .fileOptions =>
    [.one 1 "java_package" .text, .one 8 "java_outer_classname" .text,
     .one 9 "optimize_for" .int32, .one 10 "java_multiple_files" .bool,
     .one 11 "go_package" .text, .one 16 "cc_generic_services" .bool,
     .one 17 "java_generic_services" .bool, .one 18 "py_generic_services" .bool,
     .one 20 "java_generate_equals_and_hash" .bool, .one 23 "deprecated" .bool,
     .one 27 "java_string_check_utf8" .bool, .one 31 "cc_enable_arenas" .bool,
     .one 36 "objc_class_prefix" .text, .one 37 "csharp_namespace" .text,
     .one 39 "swift_prefix" .text, .one 40 "php_class_prefix" .text,
     .one 41 "php_namespace" .text, .one 42 "php_generic_services" .bool,
     .one 44 "php_metadata_namespace" .text, .one 45 "ruby_package" .text,
     .subs 999 "uninterpreted_option" .uninterpretedOption]
  | .messageOptions =>
    [.one 1 "message_set_wire_format" .bool, .one 2 "no_standard_descriptor_accessor" .bool,
     .one 3 "deprecated" .bool, .one 7 "map_entry" .bool,
     .subs 999 "uninterpreted_option" .uninterpretedOption]
  | .fieldOptions =>
    [.one 1 "ctype" .int32, .one 2 "packed" .bool, .one 3 "deprecated" .bool,
     .one 5 "lazy" .bool, .one 6 "jstype" .int32, .one 10 "weak" .bool,
     .subs 999 "uninterpreted_option" .uninterpretedOption]
  | .oneofOptions =>
    [.subs 999 "uninterpreted_option" .uninterpretedOption]
  | .enumOptions =>
    [.one 2 "allow_alias" .bool, .one 3 "deprecated" .bool,
     .subs 999 "uninterpreted_option" .uninterpretedOption]
  | .enumValueOptions =>
    [.one 1 "deprecated" .bool, .subs 999 "uninterpreted_option" .uninterpretedOption]
  | .serviceOptions =>
    [.one 33 "deprecated" .bool, .subs 999 "uninterpreted_option" .uninterpretedOption]
  | .methodOptions =>
    [.one 33 "deprecated" .bool, .one 34 "idempotency_level" .int32,
     .subs 999 "uninterpreted_option" .uninterpretedOption]
  | .uninterpretedOption =>
    [.subs 2 "name" .namePart, .one 3 "identifier_value" .text,
     .one 4 "positive_int_value" .uint64, .one 5 "negative_int_value" .int64,
     .one 6 "double_value" .double, .one 7 "string_value" .bytes,
     .one 8 "aggregate_value" .text]
  | .namePart =>
    [.required 1 "name_part" .text, .required 2 "is_extension" .bool]
  | .sourceCodeInfo =>
    [.subs 1 "location" .location]
  | .location =>
    [.packed 1 "path" .int32, .packed 2 "span" .int32, .one 3 "leading_comments" .text,
     .one 4 "trailing_comments" .text, .many 6 "leading_detached_comments" .text]
  | .generatedCodeInfo =>
    [.subs 1 "annotation" .codeSpan]
  | .codeSpan =>
    [.packed 1 "path" .int32, .one 2 "source_file" .text, .one 3 "begin" .int32,
     .one 4 "end" .int32]

def qualified (t : MessageType) (f : Field) : String :=
  t.title ++ "." ++ f.name

def field? (t : MessageType) (number : Nat) : Option Field :=
  t.fields.find? (·.number = number)

theorem fields_sorted (t : MessageType) : t.fields.Pairwise fun f g => f.number < g.number := by
  cases t <;> decide

theorem number_pos {t : MessageType} {f : Field} (mem : f ∈ t.fields) : 0 < f.number := by
  revert f
  cases t <;> decide

theorem number_lt {t : MessageType} {f : Field} (mem : f ∈ t.fields) : f.number < 1024 := by
  revert f
  cases t <;> decide

theorem number_of_field? {t : MessageType} {number : Nat} {f : Field} (h : t.field? number = some f) :
    f.number = number := by
  simpa using List.find?_some h

theorem mem_of_field? {t : MessageType} {number : Nat} {f : Field} (h : t.field? number = some f) :
    f ∈ t.fields :=
  List.mem_of_find?_eq_some h

end CompilerPlugin.Schema.MessageType
