import FlutterScaffold.Template.Sketch

/-!
# Single files

A page, a widget or a provider can be made on its own, outside any feature. Each is one file, with
its path relative to the directory that the project keeps for its kind.
-/

namespace FlutterScaffold.Template

/-- A page with a loading flag. -/
def pageBody : Text :=
  sketch [
    "import 'package:flutter/material.dart';",
    "import 'package:flutter_riverpod/flutter_riverpod.dart';",
    "",
    "final ⟦⟦ident⟧⟧LoadingProvider = StateProvider<bool>((ref) => false);",
    "",
    "class ⟦⟦Type⟧⟧Page extends ConsumerWidget ⟦",
    "  const ⟦⟦Type⟧⟧Page(⟦super.key⟧);",
    "",
    "  @override",
    "  Widget build(BuildContext context, WidgetRef ref) ⟦",
    "    final isLoading = ref.watch(⟦⟦ident⟧⟧LoadingProvider);",
    "",
    "    return Scaffold(",
    "      appBar: AppBar(",
    "        title: const Text('⟦⟦Type⟧⟧'),",
    "      ),",
    "      body: Center(",
    "        child: isLoading",
    "            ? const CircularProgressIndicator()",
    "            : const Text('⟦⟦Type⟧⟧'),",
    "      ),",
    "    );",
    "  ⟧",
    "⟧"]

/-- An empty widget. -/
def widgetBody : Text :=
  sketch [
    "import 'package:flutter/material.dart';",
    "import 'package:flutter_riverpod/flutter_riverpod.dart';",
    "",
    "class ⟦⟦Type⟧⟧Widget extends ConsumerWidget ⟦",
    "  const ⟦⟦Type⟧⟧Widget(⟦super.key⟧);",
    "",
    "  @override",
    "  Widget build(BuildContext context, WidgetRef ref) ⟦",
    "    return Container();",
    "  ⟧",
    "⟧"]

/-- A provider and a helper that sets its state. -/
def providerBody : Text :=
  sketch [
    "import 'package:flutter_riverpod/flutter_riverpod.dart';",
    "",
    "final ⟦⟦ident⟧⟧Provider = StateProvider<bool>((ref) => false);",
    "",
    "class ⟦⟦Type⟧⟧State ⟦",
    "  static void update(WidgetRef ref, bool value) ⟦",
    "    ref.read(⟦⟦ident⟧⟧Provider.notifier).state = value;",
    "  ⟧",
    "⟧"]

/-- The file of a single page. -/
def page : Template := ⟨sketchLine "⟦⟦snake⟧⟧_page.dart", pageBody⟩

/-- The file of a single widget. -/
def widget : Template := ⟨sketchLine "⟦⟦snake⟧⟧_widget.dart", widgetBody⟩

/-- The file of a single provider. -/
def provider : Template := ⟨sketchLine "⟦⟦snake⟧⟧_provider.dart", providerBody⟩

end FlutterScaffold.Template
