import FlutterScaffold.Template.Sketch

/-!
# The files of a new application

A new application starts with its network client, storage and error types, an entry point, two pages
to navigate between, and a route registry that knows both. Paths are relative to the project
directory, directories to its `lib`.
-/

namespace FlutterScaffold.Template

namespace Application

/-- The network client. -/
def networkClient : Text :=
  sketch [
    "import 'package:dio/dio.dart';",
    "import 'interceptors/auth_interceptor.dart';",
    "import 'interceptors/logging_interceptor.dart';",
    "",
    "class DioClient ⟦",
    "  static final Dio _dio = Dio(",
    "    BaseOptions(",
    "      baseUrl: 'https://api.example.com',",
    "      connectTimeout: const Duration(seconds: 10),",
    "      receiveTimeout: const Duration(seconds: 10),",
    "      headers: ⟦",
    "        'Content-Type': 'application/json',",
    "        'Accept': 'application/json',",
    "      ⟧,",
    "    ),",
    "  )..interceptors.addAll([",
    "      LoggingInterceptor(),",
    "      AuthInterceptor(),",
    "    ]);",
    "",
    "  static Dio get instance => _dio;",
    "⟧"]

/-- The step that signs requests. -/
def authInterceptor : Text :=
  sketch [
    "import 'package:dio/dio.dart';",
    "import '../../storage/token_manager.dart';",
    "",
    "class AuthInterceptor extends Interceptor ⟦",
    "  @override",
    "  void onRequest(RequestOptions options, RequestInterceptorHandler handler) async ⟦",
    "    final token = await TokenManager.getToken();",
    "    if (token != null) ⟦",
    "      options.headers['Authorization'] = 'Bearer $token';",
    "    ⟧",
    "    handler.next(options);",
    "  ⟧",
    "",
    "  @override",
    "  void onError(DioException err, ErrorInterceptorHandler handler) async ⟦",
    "    if (err.response?.statusCode == 401) ⟦",
    "      await TokenManager.clearTokens();",
    "    ⟧",
    "    handler.next(err);",
    "  ⟧",
    "⟧"]

/-- The step that logs requests. -/
def loggingInterceptor : Text :=
  sketch [
    "import 'package:dio/dio.dart';",
    "import 'package:logger/logger.dart';",
    "",
    "class LoggingInterceptor extends Interceptor ⟦",
    "  final Logger _logger = Logger();",
    "",
    "  @override",
    "  void onRequest(RequestOptions options, RequestInterceptorHandler handler) ⟦",
    "    _logger.d('REQUEST[$⟦options.method⟧] => PATH: $⟦options.path⟧');",
    "    handler.next(options);",
    "  ⟧",
    "",
    "  @override",
    "  void onResponse(Response response, ResponseInterceptorHandler handler) ⟦",
    "    _logger.d('RESPONSE[$⟦response.statusCode⟧] => PATH: $⟦response.requestOptions.path⟧');",
    "    handler.next(response);",
    "  ⟧",
    "",
    "  @override",
    "  void onError(DioException err, ErrorInterceptorHandler handler) ⟦",
    "    _logger.e('ERROR[$⟦err.response?.statusCode⟧] => PATH: $⟦err.requestOptions.path⟧');",
    "    handler.next(err);",
    "  ⟧",
    "⟧"]

/-- The store of the session token. -/
def tokenManager : Text :=
  sketch [
    "import 'package:shared_preferences/shared_preferences.dart';",
    "",
    "class TokenManager ⟦",
    "  static const String _tokenKey = 'auth_token';",
    "  static const String _refreshTokenKey = 'refresh_token';",
    "",
    "  static Future<void> saveToken(String token) async ⟦",
    "    final prefs = await SharedPreferences.getInstance();",
    "    await prefs.setString(_tokenKey, token);",
    "  ⟧",
    "",
    "  static Future<String?> getToken() async ⟦",
    "    final prefs = await SharedPreferences.getInstance();",
    "    return prefs.getString(_tokenKey);",
    "  ⟧",
    "",
    "  static Future<void> clearTokens() async ⟦",
    "    final prefs = await SharedPreferences.getInstance();",
    "    await prefs.remove(_tokenKey);",
    "    await prefs.remove(_refreshTokenKey);",
    "  ⟧",
    "⟧"]

/-- The failures that repositories report. -/
def failures : Text :=
  sketch [
    "abstract class Failure ⟦",
    "  final String message;",
    "  const Failure(this.message);",
    "⟧",
    "",
    "class ServerFailure extends Failure ⟦",
    "  const ServerFailure([String message = 'Server error occurred']) : super(message);",
    "⟧",
    "",
    "class NetworkFailure extends Failure ⟦",
    "  const NetworkFailure([String message = 'Network error occurred']) : super(message);",
    "⟧",
    "",
    "class ValidationFailure extends Failure ⟦",
    "  const ValidationFailure([String message = 'Validation error occurred']) : super(message);",
    "⟧"]

/-- The entry point. -/
def entryPoint : Text :=
  sketch [
    "import 'package:flutter/material.dart';",
    "import 'package:flutter_riverpod/flutter_riverpod.dart';",
    "import 'core/router/app_router.dart';",
    "",
    "void main() ⟦",
    "  runApp(",
    "    const ProviderScope(",
    "      child: ⟦⟦Type⟧⟧App(),",
    "    ),",
    "  );",
    "⟧",
    "",
    "class ⟦⟦Type⟧⟧App extends ConsumerWidget ⟦",
    "  const ⟦⟦Type⟧⟧App(⟦super.key⟧);",
    "",
    "  @override",
    "  Widget build(BuildContext context, WidgetRef ref) ⟦",
    "    final router = ref.watch(routerProvider);",
    "",
    "    return MaterialApp.router(",
    "      title: '⟦⟦Type⟧⟧',",
    "      routerConfig: router,",
    "    );",
    "  ⟧",
    "⟧"]

/-- The page that the application opens with. -/
def loginPage : Text :=
  sketch [
    "import 'package:flutter/material.dart';",
    "import 'package:flutter_riverpod/flutter_riverpod.dart';",
    "",
    "class LoginPage extends ConsumerWidget ⟦",
    "  const LoginPage(⟦super.key⟧);",
    "",
    "  @override",
    "  Widget build(BuildContext context, WidgetRef ref) ⟦",
    "    return Scaffold(",
    "      appBar: AppBar(",
    "        title: const Text('Login'),",
    "      ),",
    "      body: const Center(",
    "        child: Text('Login Page'),",
    "      ),",
    "    );",
    "  ⟧",
    "⟧"]

/-- The page behind the login. -/
def homePage : Text :=
  sketch [
    "import 'package:flutter/material.dart';",
    "import 'package:flutter_riverpod/flutter_riverpod.dart';",
    "",
    "class HomePage extends ConsumerWidget ⟦",
    "  const HomePage(⟦super.key⟧);",
    "",
    "  @override",
    "  Widget build(BuildContext context, WidgetRef ref) ⟦",
    "    return Scaffold(",
    "      appBar: AppBar(",
    "        title: const Text('Home'),",
    "      ),",
    "      body: const Center(",
    "        child: Text('Home Page'),",
    "      ),",
    "    );",
    "  ⟧",
    "⟧"]

/-- The route registry. It does not import the material library, whose `Router` would clash with the
class of the constants. -/
def registry : Text :=
  sketch [
    "import 'package:go_router/go_router.dart';",
    "import 'package:flutter_riverpod/flutter_riverpod.dart';",
    "import '../../features/auth/presentation/pages/login_page.dart';",
    "import '../../features/home/presentation/pages/home_page.dart';",
    "",
    "class ⟦⟦router⟧⟧ ⟦",
    "  static const String login = '/login';",
    "  static const String loginName = 'login';",
    "  static const String home = '/home';",
    "  static const String homeName = 'home';",
    "⟧",
    "",
    "final routerProvider = Provider<GoRouter>((ref) ⟦",
    "  return GoRouter(",
    "    initialLocation: ⟦⟦router⟧⟧.login,",
    "    routes: [",
    "      GoRoute(",
    "        path: ⟦⟦router⟧⟧.login,",
    "        name: ⟦⟦router⟧⟧.loginName,",
    "        builder: (context, state) => const LoginPage(),",
    "      ),",
    "      GoRoute(",
    "        path: ⟦⟦router⟧⟧.home,",
    "        name: ⟦⟦router⟧⟧.homeName,",
    "        builder: (context, state) => const HomePage(),",
    "      ),",
    "    ],",
    "  );",
    "⟧);"]

/-- The directories of an application. -/
def directories : List Path :=
  ["core/constants", "core/network/interceptors", "core/storage", "core/router", "core/error",
    "features/auth/presentation/pages", "features/home/presentation/pages", "shared/widgets",
    "shared/providers", "shared/functions", "shared/enums", "shared/validators"].map lit

/-- The files of an application, in the order they are written; the registry is not among them. -/
def files : List Template :=
  [⟨lit "lib/core/network/dio_client.dart", networkClient⟩,
    ⟨lit "lib/core/network/interceptors/auth_interceptor.dart", authInterceptor⟩,
    ⟨lit "lib/core/network/interceptors/logging_interceptor.dart", loggingInterceptor⟩,
    ⟨lit "lib/core/storage/token_manager.dart", tokenManager⟩,
    ⟨lit "lib/core/error/failures.dart", failures⟩,
    ⟨lit "lib/main.dart", entryPoint⟩,
    ⟨lit "lib/features/auth/presentation/pages/login_page.dart", loginPage⟩,
    ⟨lit "lib/features/home/presentation/pages/home_page.dart", homePage⟩]

end Application

end FlutterScaffold.Template
