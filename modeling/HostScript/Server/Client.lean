import HostScript.Json.Shape

set_option autoImplicit false

namespace HostScript.Client

open Shape (ofFields flags)

def dynamic : Shape := flags ["dynamicRegistration"]

def valueSet (item : Shape) : Shape := ofFields [("valueSet", .list item)]

def properties : Shape := ofFields [("properties", .list .text)]

def workspaceEdits : Shape := ofFields [
  ("documentChanges", .flag), ("resourceOperations", .list .text), ("failureHandling", .text),
  ("normalizesLineEndings", .flag), ("changeAnnotationSupport", flags ["groupsOnLabel"])]

def workspace : Shape := ofFields [
  ("applyEdit", .flag), ("workspaceEdit", workspaceEdits), ("didChangeConfiguration", dynamic),
  ("didChangeWatchedFiles", dynamic),
  ("symbol", ofFields [("dynamicRegistration", .flag), ("symbolKind", valueSet .whole),
    ("tagSupport", valueSet .whole)]),
  ("executeCommand", dynamic), ("workspaceFolders", .flag), ("configuration", .flag),
  ("semanticTokens", flags ["refreshSupport"]), ("codeLens", flags ["refreshSupport"]),
  ("fileOperations", flags ["dynamicRegistration", "didCreate", "willCreate", "didRename", "willRename",
    "didDelete", "willDelete"])]

def completion : Shape := ofFields [
  ("dynamicRegistration", .flag),
  ("completionItem", ofFields [
    ("snippetSupport", .flag), ("commitCharactersSupport", .flag), ("documentationFormat", .list .text),
    ("deprecatedSupport", .flag), ("preselectSupport", .flag), ("tagSupport", valueSet .whole),
    ("insertReplaceSupport", .flag), ("resolveSupport", properties),
    ("insertTextModeSupport", valueSet .whole)]),
  ("completionItemKind", valueSet .whole), ("contextSupport", .flag)]

def signatureHelp : Shape := ofFields [
  ("dynamicRegistration", .flag),
  ("signatureInformation", ofFields [
    ("documentationFormat", .list .text), ("parameterInformation", flags ["labelOffsetSupport"]),
    ("activeParameterSupport", .flag)]),
  ("contextSupport", .flag)]

def documentSymbols : Shape := ofFields [
  ("dynamicRegistration", .flag), ("symbolKind", valueSet .whole),
  ("hierarchicalDocumentSymbolSupport", .flag), ("tagSupport", valueSet .whole), ("labelSupport", .flag)]

def codeActions : Shape := ofFields [
  ("dynamicRegistration", .flag),
  ("codeActionLiteralSupport", ofFields [("codeActionKind", valueSet .text)]),
  ("isPreferredSupport", .flag), ("disabledSupport", .flag), ("dataSupport", .flag),
  ("resolveSupport", properties), ("honorsChangeAnnotations", .flag)]

def semanticTokens : Shape := ofFields [
  ("dynamicRegistration", .flag),
  ("requests", ofFields [("range", .either .flag (ofFields [])), ("full", .either .flag (flags ["delta"]))]),
  ("tokenTypes", .list .text), ("tokenModifiers", .list .text), ("formats", .list .text),
  ("overlappingTokenSupport", .flag), ("multilineTokenSupport", .flag)]

def findings : Shape := ofFields [
  ("relatedInformation", .flag), ("tagSupport", valueSet .whole), ("versionSupport", .flag),
  ("codeDescriptionSupport", .flag), ("dataSupport", .flag)]

def linked : Shape := flags ["dynamicRegistration", "linkSupport"]

def textDocument : Shape := ofFields [
  ("synchronization", flags ["dynamicRegistration", "willSave", "willSaveWaitUntil", "didSave"]),
  ("completion", completion),
  ("hover", ofFields [("dynamicRegistration", .flag), ("contentFormat", .list .text)]),
  ("signatureHelp", signatureHelp), ("declaration", linked), ("definition", linked),
  ("typeDefinition", linked), ("implementation", linked), ("references", dynamic),
  ("documentHighlight", dynamic), ("documentSymbol", documentSymbols), ("codeAction", codeActions),
  ("codeLens", dynamic), ("documentLink", flags ["dynamicRegistration", "tooltipSupport"]),
  ("colorProvider", dynamic), ("formatting", dynamic), ("rangeFormatting", dynamic),
  ("onTypeFormatting", dynamic),
  ("rename", ofFields [("dynamicRegistration", .flag), ("prepareSupport", .flag),
    ("prepareSupportDefaultBehavior", .whole), ("honorsChangeAnnotations", .flag)]),
  ("publishDiagnostics", findings),
  ("foldingRange", ofFields [("dynamicRegistration", .flag), ("rangeLimit", .count),
    ("lineFoldingOnly", .flag)]),
  ("selectionRange", dynamic), ("linkedEditingRange", dynamic), ("callHierarchy", dynamic),
  ("semanticTokens", semanticTokens), ("moniker", dynamic)]

def window : Shape := ofFields [
  ("workDoneProgress", .flag),
  ("showMessage", ofFields [("messageActionItem", flags ["additionalPropertiesSupport"])]),
  ("showDocument", flags ["support"])]

def general : Shape := ofFields [
  ("regularExpressions", ofFields [("engine", .text), ("version", .text)]),
  ("markdown", ofFields [("parser", .text), ("version", .text)])]

def abilities : Shape := ofFields [
  ("workspace", workspace), ("textDocument", textDocument), ("window", window), ("general", general),
  ("experimental", .anything)]

def info : Shape := ofFields [("name", .text), ("version", .text)]

def folder : Shape := ofFields [("uri", .text), ("name", .text)]

def documentation : Shape := .either .text (ofFields [("kind", .text), ("value", .text)])

def shownHelp : Shape := ofFields [
  ("signatures", .list (ofFields [
    ("label", .text), ("documentation", documentation),
    ("parameters", .list (ofFields [
      ("label", .either .text (.list .count)), ("documentation", documentation)])),
    ("activeParameter", .count)])),
  ("activeSignature", .count), ("activeParameter", .count)]

def token : Shape := .either .whole .text

end HostScript.Client
